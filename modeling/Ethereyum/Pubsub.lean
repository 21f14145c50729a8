/-
# `Pubsub` — when a notification reaches its subscription

`subscribe` makes the channel and sends the request; the channel's sender stays
inside the `Pubsub` until a poll finds the subscription id, and only that poll
puts it into the client's subscription table.  The read loop meanwhile drops
every notification whose id the table does not know.  `Client::request`, next
to it, inserts its sender before it sends.

So between the dispatch of the confirming response and the next poll of the
`Pubsub` notifications are lost, and after that poll none is
(`none_lost_iff`).  The steps here are the dispatch of one response and a poll:
a poll takes the lock of the subscription table only and can fall between two
responses of one frame.
-/
import Ethereyum.History

namespace Ethereyum

/-! ## The stream -/

/-- The `State` of `streaming/pubsub.rs`. -/
inductive PubsubState where
  | subscribing (fut : YumFuture Nat)
  | subscribed

structure Pubsub (α : Type) where
  id : Nat
  state : PubsubState
  notifications : ChannelId
  tx : Option ChannelId
  de : Value → Except Error α
  done : Bool

namespace Pubsub
variable {α : Type}

/-- `PubsubOps::subscribe` and `Pubsub::new`. -/
def subscribe (C : Codec) (c : Client) (params : List Value) (op : Value → Except Error α)
    (env : Env) : Pubsub α × Client :=
  let (ch, c) := c.channel
  let (idFut, c) := Client.request C c "parity_subscribe" params deUsize env
  ({ id := 0, state := .subscribing idFut, notifications := ch, tx := some ch, de := op,
     done := false }, c)

/-- The `Subscribed` branch: a value that does not decode is dropped. -/
def pollSubscribed (c : Client) (p : Pubsub α) : Poll (Option α) × Client × Pubsub α :=
  match c.channels.poll p.notifications with
  | (.ready (some v), channels) =>
      match p.de v with
      | .ok t => (.ok (.ready (some t)), { c with channels }, p)
      | .error _ => (.ok .notReady, { c with channels }, p)
  | (_, channels) => (.ok .notReady, { c with channels }, p)

/-- `Pubsub::poll`; the loop runs once more after a registration, and `none` is
the panic of `expect`. -/
def poll (c : Client) (p : Pubsub α) : Option (Poll (Option α) × Client × Pubsub α) :=
  if p.done then some (.ok (.ready none), c, p)
  else
    match p.state with
    | .subscribing fut =>
        match fut.poll c.oneshots with
        | (.error e, _) => some (.error e, c, { p with state := .subscribed })
        | (.ok .notReady, fut') => some (.ok .notReady, c, { p with state := .subscribing fut' })
        | (.ok (.ready id), _) =>
            match p.tx with
            | none => none
            | some tx => some (pollSubscribed (c.addSubscription id tx)
                { p with id, tx := none, state := .subscribed })
    | .subscribed => some (pollSubscribed c p)

end Pubsub

/-! ## The read loop beside a `Pubsub` -/

inductive PubsubEvent where
  | dispatch (r : RpcResponse)
  | poll

/-- The read loop dispatches one response, or the owner polls. -/
def pubsubMachine (α : Type) :
    Mealy (Client × Pubsub α) PubsubEvent (Option (Poll (Option α))) where
  step s
    | .dispatch r => some (none, s.1.readOne r, s.2)
    | .poll => (s.2.poll s.1).map fun r => (some r.1, r.2)

/-- What waits in a channel. -/
def Client.queued (c : Client) (ch : ChannelId) : List Value :=
  ((c.channels[ch]?).map (·.queue)).getD []

/-- No response of the trace answers `id`. -/
def NoAnswer {ο : Type} (tr : List (PubsubEvent × ο)) (id : Nat) : Prop :=
  ∀ r o, (.dispatch r, o) ∈ tr → r.requestId ≠ some id

/-- A `Pubsub` just subscribed at `c`, with a send that succeeded. -/
def subscribedAt {α : Type} (C : Codec) (c : Client) (params : List Value)
    (op : Value → Except Error α) (now : Int) : Client × Pubsub α :=
  let (p, c) := Pubsub.subscribe C c params op ⟨now, true⟩
  (c, p)

/-! ## Channels under a dispatch and under a poll -/

/-- The receiver of `ch` is still there. -/
def Client.Hears (c : Client) (ch : ChannelId) : Prop :=
  ∃ chan, c.channels[ch]? = some chan ∧ chan.rx = true

namespace Client
variable {c : Client} {ch : ChannelId}

theorem queued_notify (hch : c.Hears ch) {s : Nat} (hs : c.subscriptions.lookup s = some ch)
    (w : Value) : (c.notify s w).queued ch = c.queued ch ++ [w] := by
  obtain ⟨chan, hchan, hrx⟩ := hch
  simp only [notify, hs, queued, Channels.getElem?_unboundedSend w hchan hrx, hchan,
    Option.map_some, Option.getD_some]

theorem channels_notify_ne {s : Nat} (hs : c.subscriptions.lookup s ≠ some ch) (w : Value) :
    (c.notify s w).channels[ch]? = c.channels[ch]? := by
  unfold notify
  split
  · rfl
  · rename_i ch' hch'
    exact Channels.getElem?_unboundedSend_ne w fun heq => hs (heq ▸ hch')

theorem queued_notify_ne {s : Nat} (hs : c.subscriptions.lookup s ≠ some ch) (w : Value) :
    (c.notify s w).queued ch = c.queued ch := by
  simp only [queued, channels_notify_ne hs]

theorem Hears.notify (h : c.Hears ch) (s : Nat) (w : Value) : (c.notify s w).Hears ch := by
  by_cases hs : c.subscriptions.lookup s = some ch
  · obtain ⟨chan, hchan, hrx⟩ := h
    refine ⟨{ chan with queue := chan.queue ++ [w] }, ?_, hrx⟩
    simp only [Client.notify, hs]
    exact Channels.getElem?_unboundedSend w hchan hrx
  · obtain ⟨chan, hchan, hrx⟩ := h
    exact ⟨chan, (channels_notify_ne hs w).trans hchan, hrx⟩

theorem Hears.readOne (h : c.Hears ch) (r : RpcResponse) : (c.readOne r).Hears ch := by
  cases r with
  | subscription s w => exact h.notify s w
  | success id v => simpa [Client.readOne, Hears] using h
  | failure id e => simpa [Client.readOne, Hears] using h

theorem Hears.addSubscription (h : c.Hears ch) (s : Nat) (tx : ChannelId) :
    (c.addSubscription s tx).Hears ch := by
  obtain ⟨chan, hchan, hrx⟩ := h
  unfold Client.addSubscription
  split
  · exact ⟨chan, hchan, hrx⟩
  · rename_i old _
    by_cases hold : old = ch
    · subst hold
      exact ⟨{ chan with tx := false }, by simp [Channels.dropSender, hchan], hrx⟩
    · exact ⟨chan, by simp [Channels.dropSender, hold, hchan], hrx⟩

end Client

theorem Channels.poll_hears {cs : Channels} {ch ch' : ChannelId} {chan : Channel}
    (hchan : cs[ch]? = some chan) (hrx : chan.rx = true) :
    ∃ chan', (cs.poll ch').2[ch]? = some chan' ∧ chan'.rx = true := by
  unfold Channels.poll
  split
  · exact ⟨chan, hchan, hrx⟩
  · rename_i c' hc'
    split
    · rename_i v queue _
      by_cases hne : ch' = ch
      · subst hne
        obtain rfl : chan = c' := Option.some.inj (hchan.symm.trans hc')
        obtain ⟨hlt, _⟩ := List.getElem?_eq_some_iff.mp hchan
        exact ⟨{ chan with queue }, by simp [hlt], hrx⟩
      · exact ⟨chan, by rw [List.getElem?_set_ne hne]; exact hchan, hrx⟩
    · split
      · exact ⟨chan, hchan, hrx⟩
      · exact ⟨chan, hchan, hrx⟩

/-- Reading from a channel touches the queues only. -/
theorem Pubsub.pollSubscribed_eq {α : Type} (c : Client) (p : Pubsub α) :
    ∃ o, pollSubscribed c p =
      (o, { c with channels := (c.channels.poll p.notifications).2 }, p) := by
  unfold pollSubscribed
  split
  · rename_i heq
    split <;> exact ⟨_, by rw [heq]⟩
  · rename_i heq
    exact ⟨_, by rw [heq]⟩

/-! ## The two phases of a `Pubsub` -/

section phases
variable {α : Type} {c : Client} {p : Pubsub α} {ch : ChannelId} {tx : Oneshot} {s : Nat}

/-- The `Pubsub` waits for the answer in `tx`, and nothing is sent to its
channel. -/
structure Unregistered (ch : ChannelId) (tx : Oneshot) (c : Client) (p : Pubsub α) : Prop where
  done : p.done = false
  notifications : p.notifications = ch
  state : p.state = .subscribing (.waiting tx deUsize)
  sender : p.tx = some ch
  hears : c.Hears ch
  nobody : ∀ s, c.subscriptions.lookup s ≠ some ch

/-- The `Pubsub` gets the notifications of `s`. -/
structure Registered (ch : ChannelId) (s : Nat) (c : Client) (p : Pubsub α) : Prop where
  done : p.done = false
  notifications : p.notifications = ch
  state : p.state = .subscribed
  hears : c.Hears ch
  known : c.subscriptions.lookup s = some ch

theorem Unregistered.dispatch (h : Unregistered ch tx c p) (r : RpcResponse) :
    Unregistered ch tx (c.readOne r) p :=
  { h with
    hears := h.hears.readOne r
    nobody := by rw [Client.readOne_subscriptions]; exact h.nobody }

theorem Registered.dispatch (h : Registered ch s c p) (r : RpcResponse) :
    Registered ch s (c.readOne r) p :=
  { h with
    hears := h.hears.readOne r
    known := by rw [Client.readOne_subscriptions]; exact h.known }

/-- Before the answer a poll changes nothing. -/
theorem Unregistered.poll_empty (h : Unregistered ch tx c p) (hslot : c.oneshots.get tx = .empty) :
    p.poll c = some (.ok .notReady, c, p) := by
  have hfut : YumFuture.poll c.oneshots (.waiting tx deUsize) =
      (.ok .notReady, .waiting tx deUsize) := YumFuture.pollWaiting_empty hslot
  cases p with
  | mk id state notifications sender de done =>
      obtain rfl : state = .subscribing (.waiting tx deUsize) := h.state
      simp [Pubsub.poll, show done = false from h.done, hfut]

/-- The poll that finds the id registers the channel under it. -/
theorem Unregistered.poll_sent (h : Unregistered ch tx c p) {v : Value}
    (hslot : c.oneshots.get tx = .sent (.ok v)) (hde : deUsize v = .ok s) :
    ∃ o c' p', p.poll c = some (o, c', p') ∧ Registered ch s c' p' := by
  have hfut : YumFuture.poll c.oneshots (.waiting tx deUsize) = (.ok (.ready s), .complete) :=
    YumFuture.pollWaiting_sent hslot hde
  obtain ⟨o, hread⟩ := Pubsub.pollSubscribed_eq (c.addSubscription s ch)
    { p with id := s, tx := none, state := .subscribed }
  obtain ⟨chan, hchan, hrx⟩ := h.hears.addSubscription s ch
  have hpoll : p.poll c = some (Pubsub.pollSubscribed (c.addSubscription s ch)
      { p with id := s, tx := none, state := .subscribed }) := by
    simp [Pubsub.poll, h.done, h.state, hfut, h.sender]
  refine ⟨_, _, _, hpoll.trans (congrArg some hread), ?_⟩
  exact {
    done := h.done
    notifications := h.notifications
    state := rfl
    hears := Channels.poll_hears hchan hrx
    known := by simp }

theorem Registered.poll (h : Registered ch s c p) :
    ∃ o c' p', p.poll c = some (o, c', p') ∧ Registered ch s c' p' := by
  obtain ⟨o, hread⟩ := Pubsub.pollSubscribed_eq c p
  obtain ⟨chan, hchan, hrx⟩ := h.hears
  have hpoll : p.poll c = some (Pubsub.pollSubscribed c p) := by
    simp [Pubsub.poll, h.done, h.state]
  refine ⟨_, _, _, hpoll.trans (congrArg some hread), ?_⟩
  exact { h with hears := Channels.poll_hears hchan hrx }

end phases

/-! ## Runs -/

section runs
variable {α : Type} {C : Codec} {c : Client} {params : List Value} {op : Value → Except Error α}
  {now : Int} {tr a b : List (PubsubEvent × Option (Poll (Option α)))} {st : Client × Pubsub α}
  {v : Value} {s : Nat}

/-- Some poll is in the trace. -/
def Polled {ο : Type} (tr : List (PubsubEvent × ο)) : Prop := ∃ o, (.poll, o) ∈ tr

theorem noAnswer_snoc {ο : Type} {tr : List (PubsubEvent × ο)} {e : PubsubEvent} {o : ο} {id : Nat}
    (h : NoAnswer (tr ++ [(e, o)]) id) :
    NoAnswer tr id ∧ ∀ r, e = .dispatch r → r.requestId ≠ some id := by
  refine ⟨fun r o' hr => h r o' (List.mem_append_left _ hr), ?_⟩
  rintro r rfl
  exact h r o (List.mem_append_right _ List.mem_cons_self)

/-- A `Pubsub` that waits for the answer to `id`. -/
structure Asking (ch : ChannelId) (tx : Oneshot) (id : Nat) (c : Client) (p : Pubsub α) : Prop
    extends Unregistered ch tx c p where
  wellformed : c.Wellformed
  entry : c.pending.lookup id = some tx

theorem Asking.slot {ch : ChannelId} {tx : Oneshot} {id : Nat} {p : Pubsub α}
    (h : Asking ch tx id c p) : c.oneshots.get tx = .empty :=
  (h.wellformed.pending _ _ h.entry).2.2

/-- Right after `subscribe` it waits. -/
theorem asking_subscribedAt (hwf : c.Wellformed) :
    Asking c.channels.length c.oneshots.length c.ids (subscribedAt C c params op now).1
      (subscribedAt C c params op now).2 where
  done := rfl
  notifications := rfl
  state := rfl
  sender := rfl
  hears := by
    refine ⟨{ queue := [], tx := true, rx := true }, ?_, rfl⟩
    simp [subscribedAt, Pubsub.subscribe, Client.request_client, Client.push, Client.recordTs,
      Client.channel, Channels.unbounded]
  nobody := by
    intro s hs
    have hs : c.subscriptions.lookup s = some c.channels.length := by
      simpa [subscribedAt, Pubsub.subscribe, Client.request_client, Client.push, Client.recordTs,
        Client.channel] using hs
    exact Nat.lt_irrefl _ (hwf.subscriptions s _ hs)
  wellformed :=
    (hwf.channel.request : (Client.request C c.channel.2 "parity_subscribe" params deUsize
      ⟨now, true⟩).2.Wellformed)
  entry := by
    simp [subscribedAt, Pubsub.subscribe, Client.channel]

/-- Until the first answer to its request the `Pubsub` waits for it. -/
theorem asking_of_run (hwf : c.Wellformed)
    (hrun : (pubsubMachine α).Run (subscribedAt C c params op now) a st)
    (hnone : NoAnswer a c.ids) :
    Asking c.channels.length c.oneshots.length c.ids st.1 st.2 := by
  refine hrun.invariant (I := fun a st => NoAnswer a c.ids →
    Asking c.channels.length c.oneshots.length c.ids st.1 st.2)
    (fun _ => asking_subscribedAt hwf) ?_ hnone
  rintro tr ⟨c', p⟩ st' e o _ ih hstep hnone
  obtain ⟨hnone, he⟩ := noAnswer_snoc hnone
  have h := ih hnone
  cases e with
  | dispatch r =>
      cases hstep
      exact {
        h.toUnregistered.dispatch r with
        wellformed := h.wellformed.readOne r
        entry := (Client.readOne_pending_of_ne c' (he r rfl)).trans h.entry }
  | poll =>
      simp only [pubsubMachine, h.toUnregistered.poll_empty h.slot, Option.map_some,
        Option.some.injEq, Prod.mk.injEq] at hstep
      obtain ⟨_, rfl⟩ := hstep
      exact h

/-- The first successful answer fills the slot. -/
theorem Asking.confirm {ch : ChannelId} {tx : Oneshot} {id : Nat} {p : Pubsub α}
    (h : Asking ch tx id c p) (v : Value) :
    (c.readOne (.success id v)).oneshots.get tx = .sent (.ok v) := by
  obtain ⟨_, hlt, hempty⟩ := h.wellformed.pending _ _ h.entry
  have hread : c.readOne (.success id v) = (c.complete id (.ok v)).2 := rfl
  rw [hread, Client.complete_of_some _ h.entry]
  exact Oneshots.get_send_self _ hlt hempty

/-- After it, the `Pubsub` is registered as soon as it was polled. -/
theorem confirmed_of_run {st₀ : Client × Pubsub α} {ch : ChannelId} {tx : Oneshot}
    (hunreg : Unregistered ch tx st₀.1 st₀.2) (hslot : st₀.1.oneshots.get tx = .sent (.ok v))
    (hde : deUsize v = .ok s) (hrun : (pubsubMachine α).Run st₀ b st) :
    (Polled b ∧ Registered ch s st.1 st.2) ∨
    (¬ Polled b ∧ Unregistered ch tx st.1 st.2 ∧ st.1.oneshots.get tx = .sent (.ok v)) := by
  refine hrun.invariant (I := fun b st => (Polled b ∧ Registered ch s st.1 st.2) ∨
    (¬ Polled b ∧ Unregistered ch tx st.1 st.2 ∧ st.1.oneshots.get tx = .sent (.ok v)))
    (Or.inr ⟨by simp [Polled], hunreg, hslot⟩) ?_
  rintro tr ⟨c', p⟩ st' e o _ ih hstep
  cases e with
  | dispatch r =>
      cases hstep
      have hpolled : Polled (tr ++ [(.dispatch r, none)]) ↔ Polled tr := by simp [Polled]
      rw [hpolled]
      rcases ih with ⟨hp, hreg⟩ | ⟨hp, hunreg, hslot⟩
      · exact Or.inl ⟨hp, hreg.dispatch r⟩
      · refine Or.inr ⟨hp, hunreg.dispatch r, ?_⟩
        rw [Client.readOne_written _ _ (by rw [hslot]; simp), hslot]
  | poll =>
      have hpolled : Polled (tr ++ [(.poll, o)]) :=
        ⟨o, List.mem_append_right _ List.mem_cons_self⟩
      refine Or.inl ⟨hpolled, ?_⟩
      have hreg : ∃ o' c'' p', p.poll c' = some (o', c'', p') ∧ Registered ch s c'' p' := by
        rcases ih with ⟨_, hreg⟩ | ⟨_, hunreg, hslot⟩
        · exact hreg.poll
        · exact hunreg.poll_sent hslot hde
      obtain ⟨o', c'', p', hpoll, hreg⟩ := hreg
      simp only [pubsubMachine, hpoll, Option.map_some, Option.some.injEq, Prod.mk.injEq] at hstep
      obtain ⟨_, rfl⟩ := hstep
      exact hreg

/-- A state reached by `a`, the first answer to the request, which carries `s`,
and `b`. -/
theorem confirmed_cases (hwf : c.Wellformed) (hnone : NoAnswer a c.ids) (hde : deUsize v = .ok s)
    (hrun : (pubsubMachine α).Run (subscribedAt C c params op now)
      (a ++ (.dispatch (.success c.ids v), none) :: b) st) :
    (Polled b ∧ Registered c.channels.length s st.1 st.2) ∨
    (¬ Polled b ∧ Unregistered c.channels.length c.oneshots.length st.1 st.2) := by
  obtain ⟨⟨c', p⟩, hrun, hrest⟩ := hrun.split
  have hasking := asking_of_run hwf hrun hnone
  obtain ⟨st', hstep, hrest⟩ := Mealy.run_cons.mp hrest
  cases hstep
  have hunreg : Unregistered c.channels.length c.oneshots.length
      (c'.readOne (.success c.ids v)) p := hasking.toUnregistered.dispatch _
  exact (confirmed_of_run hunreg (hasking.confirm v) hde hrest).imp_right
    fun ⟨hp, hunreg', _⟩ => ⟨hp, hunreg'⟩

/-! ## Lost notifications -/

/-- The trace `tr` is `a`, the first answer to `id`, which carries `s`, then `b`,
then a notification `w` of `s`, then anything. -/
structure Confirmed (tr a b : List (PubsubEvent × Option (Poll (Option α)))) (id : Nat)
    (v : Value) (s : Nat) (w : Value) : Prop where
  first : NoAnswer a id
  carries : deUsize v = .ok s
  split : ∃ post, tr = (a ++ (.dispatch (.success id v), none) :: b) ++
    (.dispatch (.subscription s w), none) :: post

/-- Dispatched after the answer and `b`, the notification is enqueued on `ch`. -/
def Enqueued (start : Client × Pubsub α) (ch : ChannelId)
    (a b : List (PubsubEvent × Option (Poll (Option α)))) (id : Nat) (v : Value) (s : Nat)
    (w : Value) : Prop :=
  ∀ st, (pubsubMachine α).Run start (a ++ (.dispatch (.success id v), none) :: b) st →
    (st.1.readOne (.subscription s w)).queued ch = st.1.queued ch ++ [w]

/-- A notification is enqueued exactly when a poll came after the answer. -/
theorem enqueued_iff_polled (hwf : c.Wellformed)
    (hrun : (pubsubMachine α).Run (subscribedAt C c params op now) tr st) {w : Value}
    (h : Confirmed tr a b c.ids v s w) :
    Enqueued (subscribedAt C c params op now) c.channels.length a b c.ids v s w ↔ Polled b := by
  obtain ⟨hnone, hde, post, rfl⟩ := h
  constructor
  · intro henq
    obtain ⟨st', hbefore, _⟩ := hrun.split
    rcases confirmed_cases hwf hnone hde hbefore with ⟨hp, _⟩ | ⟨_, hunreg⟩
    · exact hp
    · have hqueue := henq st' hbefore
      have hsame : (st'.1.readOne (.subscription s w)).queued c.channels.length =
          st'.1.queued c.channels.length := Client.queued_notify_ne (hunreg.nobody s) w
      rw [hsame] at hqueue
      simp at hqueue
  · intro hp st' hbefore
    rcases confirmed_cases hwf hnone hde hbefore with ⟨_, hreg⟩ | ⟨hnp, _⟩
    · exact Client.queued_notify hreg.hears hreg.known w
    · exact absurd hp hnp

/-- **In a run no notification is lost after the confirmation exactly when every
one of them comes after a poll that follows the confirmation.** -/
theorem none_lost_iff {past : List (Op × List Registration)}
    (hreach : (history C).Run Client.new past c)
    (hrun : (pubsubMachine α).Run (subscribedAt C c params op now) tr st) :
    (∀ a b v s w, Confirmed tr a b c.ids v s w →
      Enqueued (subscribedAt C c params op now) c.channels.length a b c.ids v s w) ↔
    (∀ a b v s w, Confirmed tr a b c.ids v s w → Polled b) := by
  have hwf := Client.wellformed_of_run hreach
  constructor
  · exact fun h a b v s w hc => (enqueued_iff_polled hwf hrun hc).mp (h a b v s w hc)
  · exact fun h a b v s w hc => (enqueued_iff_polled hwf hrun hc).mpr (h a b v s w hc)

end runs

/-- The answer, a poll, and a notification. -/
def polledInTime : List PubsubEvent :=
  [.dispatch (.success 1 (.string "0x1")), .poll, .dispatch (.subscription 1 (.string "0x4dfbff"))]

/-- It arrives. -/
theorem notified_after_poll : ∃ tr st,
    (pubsubMachine Value).exec (subscribedAt Client.updateCodec Client.new [] Except.ok 0)
      polledInTime = some (tr, st) ∧
    st.1.queued 0 = [.string "0x4dfbff"] ∧
    ∀ a b v s w, Confirmed tr a b 1 v s w →
      Enqueued (subscribedAt Client.updateCodec Client.new [] Except.ok 0) 0 a b 1 v s w := by
  refine ⟨_, _, rfl, rfl, ?_⟩
  have hreach : (history Client.updateCodec).Run Client.new [] Client.new := Mealy.Run.nil
  have hrun : (pubsubMachine Value).Run (subscribedAt Client.updateCodec Client.new [] Except.ok 0)
      _ _ := Mealy.run_of_exec (show (pubsubMachine Value).exec
        (subscribedAt Client.updateCodec Client.new [] Except.ok 0) polledInTime =
          some (_, _) from rfl)
  refine (none_lost_iff hreach hrun).mpr ?_
  rintro a b v s w ⟨_, _, post, htr⟩
  cases a with
  | nil =>
      obtain ⟨_, htail⟩ := List.cons.inj htr
      cases b with
      | nil => cases htail
      | cons e b =>
          obtain ⟨rfl, _⟩ := List.cons.inj htail
          exact ⟨_, List.mem_cons_self⟩
  | cons e a =>
      -- the answer is the first event, so nothing precedes it
      obtain ⟨_, htail⟩ := List.cons.inj htr
      match a, htail with
      | [_], htail => simp at htail
      | _ :: _ :: _, htail => simp at htail

/-- The answer, then a notification, and no poll in between: it is lost. -/
theorem notification_lost_before_poll : ¬ ∀ (C : Codec) (past : List (Op × List Registration))
    (c : Client) (params : List Value) (op : Value → Except Error Value) (now : Int)
    (tr : List (PubsubEvent × Option (Poll (Option Value)))) (st : Client × Pubsub Value),
    (history C).Run Client.new past c →
    (pubsubMachine Value).Run (subscribedAt C c params op now) tr st →
    ∀ a b v s w, Confirmed tr a b c.ids v s w →
      Enqueued (subscribedAt C c params op now) c.channels.length a b c.ids v s w := by
  intro h
  have hrun : (pubsubMachine Value).Run (subscribedAt Client.updateCodec Client.new [] Except.ok 0)
      [(.dispatch (.success 1 (.string "0x1")), none),
        (.dispatch (.subscription 1 (.string "0x4dfbff")), none)] _ :=
    Mealy.run_of_exec (show (pubsubMachine Value).exec
      (subscribedAt Client.updateCodec Client.new [] Except.ok 0)
      [.dispatch (.success 1 (.string "0x1")),
        .dispatch (.subscription 1 (.string "0x4dfbff"))] = some (_, _) from rfl)
  have hconfirmed : @Confirmed Value [(.dispatch (.success 1 (.string "0x1")), none),
        (.dispatch (.subscription 1 (.string "0x4dfbff")), none)] [] [] 1 (.string "0x1") 1
        (.string "0x4dfbff") :=
    ⟨(fun _ _ hr => nomatch hr), rfl, [], rfl⟩
  have henq := h Client.updateCodec [] Client.new [] Except.ok 0 _ _ Mealy.Run.nil hrun _ _ _ _ _
    hconfirmed _ (Mealy.Run.single rfl)
  exact absurd (congrArg List.length henq) (by decide)

end Ethereyum
