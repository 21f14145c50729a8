/-
# `Subscribers` — all the `Pubsub`s of a client, beside its read loops

Every read loop of a client, whatever its host, looks subscription ids up in the
one table of the client, whose keys are the ids alone.  Here any number of
`Pubsub`s share a client with frames from any hosts and with everything else the
client does.  A poll is taken apart into the turns of its loop (`Pubsub.turn`), so
that a frame may come between the registration and the first look at the channel;
a frame of several responses is as many frames of one (`readFrame_append`), so that
turns may come between them too.

`Placed` is what the client's tables say of one `Pubsub`: until it registers nobody
knows its channel, and from then on it is connected exactly while the table has its
channel under its id.
-/
import Ethereyum.Lib.Slots
import Ethereyum.Pubsub

namespace Ethereyum

/-! ## One turn of a poll -/

namespace Pubsub
variable {α : Type}

/-- One turn of the loop of `Pubsub::poll`: what the poll returns, unless the turn
registered the channel and the loop goes on. -/
def turn (c : Client) (p : Pubsub α) : Option (Option (Poll (Option α)) × Client × Pubsub α) :=
  if p.done then some (some (.ok (.ready none)), c, p)
  else
    match p.state with
    | .subscribing fut =>
        match fut.poll c.oneshots with
        | (.error e, _) => some (some (.error e), c, { p with state := .subscribed })
        | (.ok .notReady, fut') =>
            some (some (.ok .notReady), c, { p with state := .subscribing fut' })
        | (.ok (.ready id), _) =>
            match p.tx with
            | none => none
            | some tx =>
                some (none, c.addSubscription id tx, { p with id, tx := none, state := .subscribed })
    | .subscribed =>
        some (some (pollSubscribed c p).1, (pollSubscribed c p).2.1, (pollSubscribed c p).2.2)

/-- A poll is a turn, and a second one when the first does not return. -/
theorem poll_eq_turn (c : Client) (p : Pubsub α) :
    p.poll c = (p.turn c).bind fun r => match r with
      | (some res, c', p') => some (res, c', p')
      | (none, c', p') => some (pollSubscribed c' p') := by
  by_cases hdone : p.done = true
  · simp [poll, turn, hdone]
  · cases hstate : p.state with
    | subscribed => simp [poll, turn, hdone, hstate]
    | subscribing fut =>
        simp only [poll, turn, hdone, hstate]
        cases hfut : fut.poll c.oneshots with
        | mk answer fut' =>
            cases answer with
            | error e => simp
            | ok a =>
                cases a with
                | notReady => simp
                | ready id =>
                    cases htx : p.tx with
                    | none => simp
                    | some tx => simp

/-- `Turns c p res c' p'`: what a turn of a `Pubsub` that is not done can do. -/
inductive Turns (c : Client) (p : Pubsub α) :
    Option (Poll (Option α)) → Client → Pubsub α → Prop
  | asks (fut : YumFuture Nat) (res : Poll (Option α)) (state : PubsubState)
      (asking : p.state = .subscribing fut) : Turns c p (some res) c { p with state }
  | registers (fut : YumFuture Nat) (id : Nat) (tx : ChannelId)
      (asking : p.state = .subscribing fut) (sender : p.tx = some tx) :
      Turns c p none (c.addSubscription id tx) { p with id, tx := none, state := .subscribed }
  | reads (listening : p.state = .subscribed) :
      Turns c p (some (pollSubscribed c p).1) (pollSubscribed c p).2.1 p

theorem pollSubscribed_snd (c : Client) (p : Pubsub α) :
    (pollSubscribed c p).2 =
      ({ c with channels := (c.channels.poll p.notifications).2 }, p) := by
  obtain ⟨_, h⟩ := pollSubscribed_eq c p
  rw [h]

theorem turns {c c' : Client} {p p' : Pubsub α} {res : Option (Poll (Option α))}
    (hdone : p.done = false) (h : p.turn c = some (res, c', p')) : Turns c p res c' p' := by
  rw [turn, if_neg (Bool.eq_false_iff.mp hdone)] at h
  cases hstate : p.state with
  | subscribed =>
      simp only [hstate, pollSubscribed_snd, Option.some.injEq, Prod.mk.injEq] at h
      obtain ⟨rfl, rfl, rfl⟩ := h
      have hreads := Turns.reads (c := c) hstate
      rwa [pollSubscribed_snd] at hreads
  | subscribing fut =>
      simp only [hstate] at h
      cases hfut : fut.poll c.oneshots with
      | mk answer fut' =>
          rw [hfut] at h
          cases answer with
          | error e =>
              simp only [Option.some.injEq, Prod.mk.injEq] at h
              obtain ⟨rfl, rfl, rfl⟩ := h
              exact .asks fut _ _ hstate
          | ok a =>
              cases a with
              | notReady =>
                  simp only [Option.some.injEq, Prod.mk.injEq] at h
                  obtain ⟨rfl, rfl, rfl⟩ := h
                  exact .asks fut _ _ hstate
              | ready id =>
                  cases htx : p.tx with
                  | none => simp [htx] at h
                  | some tx =>
                      simp only [htx, Option.some.injEq, Prod.mk.injEq] at h
                      obtain ⟨rfl, rfl, rfl⟩ := h
                      exact .registers fut id tx hstate htx

section
variable {c c' : Client} {p p' : Pubsub α}

/-- A turn that ends the poll. -/
theorem Turns.of_returned {r : Poll (Option α)} (h : Turns c p (some r) c' p') :
    c'.subscriptions = c.subscriptions ∧ p'.tx = p.tx ∧ p'.id = p.id ∧
      p'.notifications = p.notifications := by
  cases h with
  | asks fut res state asking => exact ⟨rfl, rfl, rfl, rfl⟩
  | reads listening =>
      rw [pollSubscribed_snd]
      exact ⟨rfl, rfl, rfl, rfl⟩

/-- A turn that goes on. -/
theorem Turns.of_registered (h : Turns c p none c' p') :
    ∃ tx, p.tx = some tx ∧ c' = c.addSubscription p'.id tx ∧
      p' = { p with id := p'.id, tx := none, state := .subscribed } := by
  cases h with
  | registers fut id tx asking sender => exact ⟨tx, sender, rfl, rfl⟩

end

end Pubsub

/-! ## The system -/

/-- A `Pubsub` of the client, with the id its `subscribe` request went out under. -/
structure Subscriber (α : Type) where
  request : Nat
  pubsub : Pubsub α

structure Crowd (α : Type) where
  client : Client
  members : List (Subscriber α)

inductive CrowdEvent (α : Type) where
  /-- the read loop of a socket to `host` dispatches -/
  | frame (host : String) (rs : List RpcResponse)
  | subscribe (params : List Value) (op : Value → Except Error α) (env : Env)
  /-- a turn of a poll of the `i`-th `Pubsub` -/
  | turn (i : Nat)
  /-- anything else the client does -/
  | other (op : Op)

/-- Requests, HTTP answers and sweeps. -/
def Op.isOther : Op → Bool
  | .request _ _ _ => true
  | .batchRequest _ _ => true
  | .body _ => true
  | .sweep _ _ => true
  | _ => false

/-- Whose turn it was, what the poll returned if the turn ended it, and the id
under which the turn registered if not. -/
structure TurnReport (α : Type) where
  member : Nat
  result : Option (Poll (Option α))
  registered : Option Nat

/-- The client and its `Pubsub`s as a machine. -/
def crowd (C : Codec) (α : Type) : Mealy (Crowd α) (CrowdEvent α) (Option (TurnReport α)) where
  step st
    | .frame _ rs => some (none, { st with client := st.client.readFrame rs })
    | .subscribe params op env =>
        some (none, {
          client := (Pubsub.subscribe C st.client params op env).2
          members := st.members ++ [⟨st.client.ids, (Pubsub.subscribe C st.client params op env).1⟩] })
    | .turn i =>
        st.members[i]?.bind fun m => (m.pubsub.turn st.client).map fun r =>
          (some ⟨i, r.1, if r.1.isNone then some r.2.2.id else none⟩,
            { client := r.2.1, members := st.members.set i { m with pubsub := r.2.2 } })
    | .other op =>
        if op.isOther then
          ((history C).step st.client op).map fun r => (none, { st with client := r.2 })
        else none

/-! ## Channels -/

/-- What a list of responses sends to the subscriptions whose ids pass `p`. -/
def notes (p : Nat → Bool) (rs : List RpcResponse) : List Value :=
  rs.filterMap fun
    | .subscription s w => if p s then some w else none
    | _ => none

namespace Client
variable {c : Client} {ch : ChannelId} {chan : Channel}

/-- The ids whose notifications go to the channel. -/
def leadsTo (c : Client) (ch : ChannelId) (s : Nat) : Bool :=
  decide (c.subscriptions.lookup s = some ch)

theorem readOne_channel (hchan : c.channels[ch]? = some chan) (hrx : chan.rx = true)
    (r : RpcResponse) :
    (c.readOne r).channels[ch]? =
      some { chan with queue := chan.queue ++ notes (c.leadsTo ch) [r] } := by
  cases r with
  | success id v => simpa [readOne, notes] using hchan
  | failure id e => simpa [readOne, notes] using hchan
  | subscription s w =>
      show (c.notify s w).channels[ch]? = _
      by_cases hs : c.subscriptions.lookup s = some ch
      · have hnotes : notes (c.leadsTo ch) [.subscription s w] = [w] := by
          simp [notes, leadsTo, hs]
        rw [hnotes, notify, hs]
        exact Channels.getElem?_unboundedSend w hchan hrx
      · have hnotes : notes (c.leadsTo ch) [.subscription s w] = [] := by
          simp [notes, leadsTo, hs]
        rw [hnotes, List.append_nil, channels_notify_ne hs w]
        exact hchan

theorem readFrame_subscriptions (c : Client) (rs : List RpcResponse) :
    (c.readFrame rs).subscriptions = c.subscriptions :=
  foldl_keeps subscriptions readOne_subscriptions rs c

/-- A frame appends to a channel the notifications of the ids that lead to it. -/
theorem readFrame_channel (rs : List RpcResponse) (hchan : c.channels[ch]? = some chan)
    (hrx : chan.rx = true) :
    (c.readFrame rs).channels[ch]? =
      some { chan with queue := chan.queue ++ notes (c.leadsTo ch) rs } := by
  induction rs generalizing c chan with
  | nil => simpa [readFrame, notes] using hchan
  | cons r rs ih =>
      have hone := readOne_channel hchan hrx r
      have hlead : (c.readOne r).leadsTo ch = c.leadsTo ch := by
        funext s
        rw [leadsTo, readOne_subscriptions, leadsTo]
      have hrest := ih hone hrx
      rw [hlead] at hrest
      have hsplit : notes (c.leadsTo ch) (r :: rs) =
          notes (c.leadsTo ch) [r] ++ notes (c.leadsTo ch) rs :=
        List.filterMap_append (l := [r])
      rw [hsplit, ← List.append_assoc]
      exact hrest

/-- A registration closes the channel it replaces, and touches no other. -/
theorem addSubscription_channel (id : Nat) (tx : ChannelId) :
    (c.addSubscription id tx).channels[ch]? = (c.channels[ch]?).map fun chan =>
      if c.subscriptions.lookup id = some ch then { chan with tx := false } else chan := by
  cases hid : c.subscriptions.lookup id with
  | none => simp [addSubscription, hid]
  | some old =>
      by_cases hold : old = ch
      · simp [addSubscription, hid, hold, Channels.dropSender]
      · simp [addSubscription, hid, hold, Channels.dropSender]

theorem subscribe_channels {α : Type} (C : Codec) (c : Client) (params : List Value)
    (op : Value → Except Error α) (env : Env) :
    (Pubsub.subscribe C c params op env).2.channels =
      c.channels ++ [{ queue := [], tx := true, rx := true }] := by
  simp [Pubsub.subscribe, request_client, push, recordTs, channel, Channels.unbounded]

theorem subscribe_subscriptions {α : Type} (C : Codec) (c : Client) (params : List Value)
    (op : Value → Except Error α) (env : Env) :
    (Pubsub.subscribe C c params op env).2.subscriptions = c.subscriptions := by
  simp [Pubsub.subscribe, request_client, push, recordTs, channel]

/-- Channels and subscriptions are not touched by requests, HTTP answers and sweeps. -/
theorem other_frame {C : Codec} {op : Op} {o : List Registration} {c' : Client}
    (hop : op.isOther = true) (hstep : (history C).step c op = some (o, c')) :
    c'.channels = c.channels ∧ c'.subscriptions = c.subscriptions := by
  cases op with
  | request method params now =>
      cases hstep
      simp [request_client, push, recordTs]
  | batchRequest requests now =>
      cases hstep
      rw [batchRequest_client]
      exact ⟨iterate_register_keeps channels register_channels _ c,
        iterate_register_keeps subscriptions register_subscriptions _ c⟩
  | body rs =>
      cases hstep
      exact ⟨foldl_keeps channels (fun c _ => complete_channels c _ _) rs c,
        foldl_keeps subscriptions (fun c _ => complete_subscriptions c _ _) rs c⟩
  | sweep now order =>
      simp only [history] at hstep
      split at hstep
      · cases hstep
        exact ⟨foldl_timeOut_keeps channels complete_channels _ ([], c),
          foldl_timeOut_keeps subscriptions complete_subscriptions _ ([], c)⟩
      · cases hstep
  | frame rs => cases hop
  | channel => cases hop
  | addSubscription id tx => cases hop

end Client

namespace Channels
variable {cs : Channels} {ch ch' : ChannelId} {chan : Channel}

/-- What a look at a channel finds. -/
def head (chan : Channel) : Async (Option Value) :=
  match chan.queue with
  | v :: _ => .ready (some v)
  | [] => if chan.tx then .notReady else .ready none

theorem poll_eq (h : cs[ch]? = some chan) :
    cs.poll ch = (head chan, cs.set ch { chan with queue := chan.queue.tail }) := by
  cases chan with
  | mk queue tx rx =>
      cases queue with
      | cons v queue => simp only [poll, head, h, List.tail_cons]
      | nil =>
          have hsame : cs.set ch { queue := [], tx, rx } = cs := by
            obtain ⟨hlt, heq⟩ := List.getElem?_eq_some_iff.mp h
            rw [← heq]
            exact List.set_getElem_self hlt
          simp only [poll, head, h, List.tail_nil, hsame]
          cases tx with
          | true => rfl
          | false => rfl

theorem poll_self (h : cs[ch]? = some chan) :
    (cs.poll ch).2[ch]? = some { chan with queue := chan.queue.tail } := by
  obtain ⟨hlt, _⟩ := List.getElem?_eq_some_iff.mp h
  rw [poll_eq h]
  exact List.getElem?_set_self hlt

theorem poll_ne (h : cs[ch]? = some chan) (hne : ch' ≠ ch) :
    (cs.poll ch).2[ch']? = cs[ch']? := by
  rw [poll_eq h]
  exact List.getElem?_set_ne hne.symm

end Channels

/-- What a poll hands out of a channel. -/
theorem Pubsub.pollSubscribed_fst {α : Type} {c : Client} {p : Pubsub α} {chan : Channel}
    (h : c.channels[p.notifications]? = some chan) :
    (pollSubscribed c p).1 = .ok (match chan.queue with
      | [] => .notReady
      | v :: _ => match p.de v with
        | .ok t => .ready (some t)
        | .error _ => .notReady) := by
  rw [pollSubscribed, Channels.poll_eq h, Channels.head]
  cases chan.queue with
  | nil => cases chan.tx <;> rfl
  | cons v queue => cases hde : p.de v <;> simp [hde]

/-! ## One `Pubsub` and its channel -/

/-- What holds of a `Pubsub` whose channel is `chan`: while it has the sender, the
channel is open and empty and nobody knows it; afterwards it is known under the id
of the `Pubsub` at most, and open exactly while it is. -/
structure Placed {α : Type} (c : Client) (p : Pubsub α) (chan : Channel) : Prop where
  done : p.done = false
  channel : c.channels[p.notifications]? = some chan
  rx : chan.rx = true
  waiting : ∀ tx, p.tx = some tx → tx = p.notifications ∧ chan.queue = [] ∧ chan.tx = true ∧
    ∀ s, c.subscriptions.lookup s ≠ some p.notifications
  listening : p.tx = none → p.state = .subscribed ∧
    (chan.tx = true ↔ c.subscriptions.lookup p.id = some p.notifications) ∧
    ∀ s, c.subscriptions.lookup s = some p.notifications → s = p.id

namespace Placed
variable {α : Type} {c c' : Client} {p q p' q' : Pubsub α} {chan chan' : Channel}
  {res : Option (Poll (Option α))}

/-- What leaves the subscriptions, and of the channel all but its queue, keeps it. -/
theorem congr (h : Placed c p chan) {queue : List Value}
    (hsubscriptions : c'.subscriptions = c.subscriptions)
    (hchannel : c'.channels[p.notifications]? = some { chan with queue })
    (hqueue : p.tx ≠ none → queue = []) : Placed c' p { chan with queue } where
  done := h.done
  channel := hchannel
  rx := h.rx
  waiting := by
    intro tx htx
    obtain ⟨rfl, _, hopen, hnobody⟩ := h.waiting tx htx
    rw [hsubscriptions]
    exact ⟨rfl, hqueue (by simp [htx]), hopen, hnobody⟩
  listening := by
    rw [hsubscriptions]
    exact h.listening

theorem congr_rfl (h : Placed c p chan) (hsubscriptions : c'.subscriptions = c.subscriptions)
    (hchannel : c'.channels[p.notifications]? = c.channels[p.notifications]?) :
    Placed c' p chan := by
  have hsame : c'.channels[p.notifications]? = some { chan with queue := chan.queue } :=
    hchannel.trans h.channel
  refine h.congr hsubscriptions hsame ?_
  intro htx
  obtain ⟨tx, htx⟩ := Option.ne_none_iff_exists'.mp htx
  exact (h.waiting tx htx).2.1

theorem readFrame (h : Placed c p chan) (rs : List RpcResponse) :
    Placed (c.readFrame rs) p
      { chan with queue := chan.queue ++ notes (c.leadsTo p.notifications) rs } := by
  refine h.congr (Client.readFrame_subscriptions c rs)
    (Client.readFrame_channel rs h.channel h.rx) ?_
  intro htx
  obtain ⟨tx, htx⟩ := Option.ne_none_iff_exists'.mp htx
  obtain ⟨_, hempty, _, hnobody⟩ := h.waiting tx htx
  have hnone : notes (c.leadsTo p.notifications) rs = [] := by
    refine List.filterMap_eq_nil_iff.mpr ?_
    intro r _
    cases r with
    | subscription s w => simp [Client.leadsTo, hnobody s]
    | success id v => rfl
    | failure id e => rfl
  rw [hempty, hnone, List.append_nil]

theorem subscribe (h : Placed c p chan) (C : Codec) (params : List Value)
    (op : Value → Except Error α) (env : Env) :
    Placed (Pubsub.subscribe C c params op env).2 p chan := by
  refine h.congr_rfl (Client.subscribe_subscriptions C c params op env) ?_
  obtain ⟨hlt, _⟩ := List.getElem?_eq_some_iff.mp h.channel
  rw [Client.subscribe_channels, List.getElem?_append_left hlt]

/-- A registration of another channel: if it replaces this one, this one is closed. -/
theorem addSubscription_ne (h : Placed c p chan) {id : Nat} {tx : ChannelId}
    (hne : p.notifications ≠ tx) :
    Placed (c.addSubscription id tx) p
      (if c.subscriptions.lookup id = some p.notifications then { chan with tx := false }
        else chan) where
  done := h.done
  channel := by
    rw [Client.addSubscription_channel, h.channel, Option.map_some]
  rx := by
    split
    · exact h.rx
    · exact h.rx
  waiting := by
    intro tx' htx'
    obtain ⟨rfl, hempty, hopen, hnobody⟩ := h.waiting tx' htx'
    rw [if_neg (hnobody id)]
    refine ⟨rfl, hempty, hopen, ?_⟩
    intro s
    rw [Client.addSubscription_subscriptions, lookup_insert_iff]
    split
    · intro heq
      exact hne (Option.some.inj heq).symm
    · exact hnobody s
  listening := by
    intro htx'
    obtain ⟨hstate, hopen, hown⟩ := h.listening htx'
    refine ⟨hstate, ?_, ?_⟩
    · rw [Client.addSubscription_subscriptions, lookup_insert_iff]
      by_cases hid : c.subscriptions.lookup id = some p.notifications
      · rw [if_pos hid, if_pos (hown id hid).symm]
        simp [hne.symm]
      · rw [if_neg hid, hopen]
        by_cases hsame : p.id = id
        · rw [if_pos hsame, hsame]
          simp [hid, hne.symm]
        · rw [if_neg hsame]
    · intro s hs
      rw [Client.addSubscription_subscriptions, lookup_insert_iff] at hs
      split at hs
      · exact absurd (Option.some.inj hs).symm hne
      · exact hown s hs

/-- The registration of this channel. -/
theorem addSubscription_self (h : Placed c p chan) (id : Nat) {tx : ChannelId}
    (htx : p.tx = some tx) : Placed (c.addSubscription id tx)
      { p with id, tx := none, state := .subscribed } chan := by
  obtain ⟨rfl, _, hopen, hnobody⟩ := h.waiting tx htx
  refine { done := h.done, channel := ?_, rx := h.rx, waiting := ?_, listening := ?_ }
  · show (c.addSubscription id p.notifications).channels[p.notifications]? = some chan
    rw [Client.addSubscription_channel, h.channel, Option.map_some, if_neg (hnobody id)]
  · intro tx' htx'
    cases htx'
  · intro _
    refine ⟨rfl, ?_, ?_⟩
    · simp [hopen]
    · intro s hs
      rw [Client.addSubscription_subscriptions, lookup_insert_iff] at hs
      split at hs
      · assumption
      · exact absurd hs (hnobody s)

/-- A look at the channel takes the oldest value off its queue. -/
theorem reads (h : Placed c p chan) :
    Placed (Pubsub.pollSubscribed c p).2.1 p { chan with queue := chan.queue.tail } := by
  rw [Pubsub.pollSubscribed_snd]
  refine h.congr rfl (Channels.poll_self h.channel) ?_
  intro htx
  obtain ⟨tx, htx⟩ := Option.ne_none_iff_exists'.mp htx
  rw [(h.waiting tx htx).2.1]
  rfl

/-- A turn of the `Pubsub` itself. -/
theorem turn_self (h : Placed c p chan) (hturn : Pubsub.Turns c p res c' p') :
    p'.notifications = p.notifications ∧ p'.de = p.de ∧ ∃ chan', Placed c' p' chan' := by
  cases hturn with
  | asks fut res state asking =>
      refine ⟨rfl, rfl, chan, ?_⟩
      refine { done := h.done, channel := h.channel, rx := h.rx, waiting := h.waiting,
               listening := ?_ }
      intro htx
      obtain ⟨hstate, _⟩ := h.listening htx
      cases asking.symm.trans hstate
  | registers fut id tx asking sender =>
      exact ⟨rfl, rfl, chan, h.addSubscription_self id sender⟩
  | reads listening => exact ⟨rfl, rfl, _, h.reads⟩

/-- A turn of another `Pubsub` can close the channel, when it registers under the
id that leads to it, and does nothing else to it. -/
theorem turn_ne (h : Placed c p chan) {chan' : Channel} (hq : Placed c q chan')
    (hne : p.notifications ≠ q.notifications) (hturn : Pubsub.Turns c q res c' q') :
    ∃ tx, Placed c' p { chan with tx } := by
  cases hturn with
  | asks fut res state asking => exact ⟨chan.tx, h⟩
  | registers fut id tx asking sender =>
      obtain ⟨rfl, _⟩ := hq.waiting tx sender
      have hplaced := @addSubscription_ne _ _ _ _ h id _ hne
      split at hplaced
      · exact ⟨false, hplaced⟩
      · exact ⟨chan.tx, hplaced⟩
  | reads listening =>
      refine ⟨chan.tx, h.congr_rfl ?_ ?_⟩
      · rw [Pubsub.pollSubscribed_snd]
      · rw [Pubsub.pollSubscribed_snd]
        exact Channels.poll_ne hq.channel hne

theorem queued (h : Placed c p chan) : c.queued p.notifications = chan.queue := by
  rw [Client.queued, h.channel]
  rfl

end Placed

/-! ## The table and the registrations -/

section registrations
variable {α : Type}

/-- Who registers in a step under `s`. -/
def registrant (s : Nat) (o : Option (TurnReport α)) : Option Nat :=
  o.bind fun t => if t.registered = some s then some t.member else none

/-- The `Pubsub` that registered last under `s`. -/
def registeredLast (tr : List (CrowdEvent α × Option (TurnReport α))) (s : Nat) : Option Nat :=
  (tr.filterMap fun e => registrant s e.2).getLast?

theorem registeredLast_snoc (tr : List (CrowdEvent α × Option (TurnReport α)))
    (e : CrowdEvent α) (o : Option (TurnReport α)) (s : Nat) :
    registeredLast (tr ++ [(e, o)]) s = (registrant s o).or (registeredLast tr s) := by
  cases ho : registrant s o with
  | none => simp [registeredLast, ho]
  | some i => simp [registeredLast, ho]

theorem registrant_registered (s i id : Nat) :
    registrant s (some (⟨i, none, if (none : Option (Poll (Option α))).isNone then some id
      else none⟩ : TurnReport α)) = if id = s then some i else none := by
  simp [registrant]

/-- The members, their channels, and whose channel the table has under which id. -/
structure Kept (tr : List (CrowdEvent α × Option (TurnReport α))) (st : Crowd α) : Prop where
  placed : ∀ (i : Nat) (m : Subscriber α), st.members[i]? = some m →
    ∃ chan, Placed st.client m.pubsub chan
  apart : ∀ (i j : Nat) (m m' : Subscriber α), st.members[i]? = some m →
    st.members[j]? = some m' → m.pubsub.notifications = m'.pubsub.notifications → i = j
  held : ∀ s i, registeredLast tr s = some i → ∃ m, st.members[i]? = some m ∧
    m.pubsub.tx = none ∧ m.pubsub.id = s ∧
    st.client.subscriptions.lookup s = some m.pubsub.notifications
  free : ∀ s, registeredLast tr s = none → st.client.subscriptions.lookup s = none

variable {C : Codec} {st st' : Crowd α} {e : CrowdEvent α} {o : Option (TurnReport α)}
  {tr : List (CrowdEvent α × Option (TurnReport α))}

theorem kept_new : Kept ([] : List (CrowdEvent α × Option (TurnReport α)))
    ⟨Client.new, []⟩ where
  placed := by simp
  apart := by simp
  held := by simp [registeredLast]
  free := by simp [Client.new]

/-- A step that registers nobody and leaves the members and the table alone. -/
theorem Kept.quiet (h : Kept tr st) {c : Client} (hsubscriptions : c.subscriptions =
    st.client.subscriptions) (hplaced : ∀ (p : Pubsub α) chan, Placed st.client p chan →
      ∃ chan', Placed c p chan') : Kept (tr ++ [(e, none)]) { st with client := c } where
  placed := by
    intro i m hm
    obtain ⟨chan, hchan⟩ := h.placed i m hm
    exact hplaced m.pubsub chan hchan
  apart := h.apart
  held := by
    intro s i hlast
    rw [registeredLast_snoc] at hlast
    rw [hsubscriptions]
    exact h.held s i hlast
  free := by
    intro s hlast
    rw [registeredLast_snoc] at hlast
    rw [hsubscriptions]
    exact h.free s hlast

/-- The channels of the members exist. -/
theorem Kept.lt (h : Kept tr st) {i : Nat} {m : Subscriber α} (hm : st.members[i]? = some m) :
    m.pubsub.notifications < st.client.channels.length := by
  obtain ⟨chan, hchan⟩ := h.placed i m hm
  exact (List.getElem?_eq_some_iff.mp hchan.channel).1

/-- Nobody is registered with a channel not yet made. -/
theorem Kept.lookup_lt (h : Kept tr st) {s : Nat} {ch : ChannelId}
    (hs : st.client.subscriptions.lookup s = some ch) : ch < st.client.channels.length := by
  cases hlast : registeredLast tr s with
  | none =>
      rw [h.free s hlast] at hs
      cases hs
  | some i =>
      obtain ⟨m, hm, _, _, hlookup⟩ := h.held s i hlast
      rw [hs] at hlookup
      rw [Option.some.inj hlookup]
      exact h.lt hm

/-- A new `Pubsub` waits at a channel of its own. -/
theorem placed_subscribe {c : Client} (hlt : ∀ s ch, c.subscriptions.lookup s = some ch →
    ch < c.channels.length) (C : Codec) (params : List Value) (op : Value → Except Error α)
    (env : Env) : Placed (Pubsub.subscribe C c params op env).2
      (Pubsub.subscribe C c params op env).1 { queue := [], tx := true, rx := true } where
  done := rfl
  channel := by
    rw [Client.subscribe_channels]
    exact List.getElem?_concat_length
  rx := rfl
  waiting := by
    rintro tx htx
    obtain rfl := Option.some.inj htx
    refine ⟨rfl, rfl, rfl, ?_⟩
    intro s hs
    rw [Client.subscribe_subscriptions] at hs
    exact Nat.lt_irrefl _ (hlt s _ hs)
  listening := by
    intro htx
    cases htx

theorem Kept.subscribe (h : Kept tr st) (params : List Value) (op : Value → Except Error α)
    (env : Env) : Kept (tr ++ [(e, none)])
      { client := (Pubsub.subscribe C st.client params op env).2
        members := st.members ++
          [⟨st.client.ids, (Pubsub.subscribe C st.client params op env).1⟩] } where
  placed := by
    intro i m hm
    rcases Slots.getElem?_snoc_cases hm with hm | ⟨_, rfl⟩
    · obtain ⟨chan, hchan⟩ := h.placed i m hm
      exact ⟨chan, hchan.subscribe C params op env⟩
    · exact ⟨_, placed_subscribe (fun _ _ hs => h.lookup_lt hs) C params op env⟩
  apart := by
    intro i j m m' hm hm' hsame
    rcases Slots.getElem?_snoc_cases hm with hm | ⟨hi, rfl⟩
    · rcases Slots.getElem?_snoc_cases hm' with hm' | ⟨_, rfl⟩
      · exact h.apart i j m m' hm hm' hsame
      · exact absurd hsame (Nat.ne_of_lt (h.lt hm))
    · rcases Slots.getElem?_snoc_cases hm' with hm' | ⟨hj, _⟩
      · exact absurd hsame.symm (Nat.ne_of_lt (h.lt hm'))
      · rw [hi, hj]
  held := by
    intro s i hlast
    rw [registeredLast_snoc] at hlast
    obtain ⟨m, hm, hrest⟩ := h.held s i hlast
    obtain ⟨hlt, _⟩ := List.getElem?_eq_some_iff.mp hm
    refine ⟨m, ?_, ?_⟩
    · show (st.members ++ _)[i]? = some m
      rw [List.getElem?_append_left hlt]
      exact hm
    · rw [Client.subscribe_subscriptions]
      exact hrest
  free := by
    intro s hlast
    rw [registeredLast_snoc] at hlast
    rw [Client.subscribe_subscriptions]
    exact h.free s hlast

/-- What a turn of the `i`-th member makes of it and of the others. -/
theorem Kept.placed_turn (h : Kept tr st) {i : Nat} {m : Subscriber α}
    (hm : st.members[i]? = some m) {c' : Client} {p' : Pubsub α}
    {res : Option (Poll (Option α))} (hturn : Pubsub.Turns st.client m.pubsub res c' p')
    {j : Nat} {x : Subscriber α}
    (hx : (st.members.set i { m with pubsub := p' })[j]? = some x) :
    ∃ y, st.members[j]? = some y ∧ x.pubsub.notifications = y.pubsub.notifications ∧
      ∃ chan, Placed c' x.pubsub chan := by
  obtain ⟨chan, hchan⟩ := h.placed i m hm
  rcases Slots.getElem?_set_cases hx with ⟨rfl, rfl⟩ | ⟨hne, hx⟩
  · obtain ⟨hsame, _, hplaced⟩ := hchan.turn_self hturn
    exact ⟨m, hm, hsame, hplaced⟩
  · obtain ⟨chan', hchan'⟩ := h.placed j x hx
    have hapart : x.pubsub.notifications ≠ m.pubsub.notifications := by
      intro heq
      exact hne (h.apart j i x m hx hm heq)
    obtain ⟨tx, hplaced⟩ := hchan'.turn_ne hchan hapart hturn
    exact ⟨x, hx, rfl, _, hplaced⟩

theorem Kept.turn (h : Kept tr st) {i : Nat} {m : Subscriber α} (hm : st.members[i]? = some m)
    {c' : Client} {p' : Pubsub α} {res : Option (Poll (Option α))}
    (hturn : Pubsub.Turns st.client m.pubsub res c' p') :
    Kept (tr ++ [(e, some ⟨i, res, if res.isNone then some p'.id else none⟩)])
      { client := c', members := st.members.set i { m with pubsub := p' } } := by
  have hlt : i < st.members.length := (List.getElem?_eq_some_iff.mp hm).1
  refine { placed := ?_, apart := ?_, held := ?_, free := ?_ }
  · intro j x hx
    obtain ⟨_, _, _, hplaced⟩ := h.placed_turn hm hturn hx
    exact hplaced
  · intro j k x x' hx hx' hsame
    obtain ⟨y, hy, hxy, _⟩ := h.placed_turn hm hturn hx
    obtain ⟨y', hy', hxy', _⟩ := h.placed_turn hm hturn hx'
    exact h.apart j k y y' hy hy' (hxy.symm.trans (hsame.trans hxy'))
  · intro s j hlast
    rw [registeredLast_snoc] at hlast
    cases res with
    | some r =>
        obtain ⟨hsubscriptions, htx', hid', hchannel'⟩ := hturn.of_returned
        obtain ⟨x, hx, htx, hid, hlookup⟩ := h.held s j hlast
        rw [← hsubscriptions] at hlookup
        by_cases hij : j = i
        · subst hij
          obtain rfl := Option.some.inj (hm.symm.trans hx)
          refine ⟨_, List.getElem?_set_self hlt, htx'.trans htx, hid'.trans hid, ?_⟩
          rw [hlookup, ← hchannel']
        · exact ⟨x, (List.getElem?_set_ne (Ne.symm hij)).trans hx, htx, hid, hlookup⟩
    | none =>
        obtain ⟨chan, hchan⟩ := h.placed i m hm
        obtain ⟨tx, sender, hc', hp'⟩ := hturn.of_registered
        obtain ⟨rfl, _⟩ := hchan.waiting tx sender
        rw [registrant_registered] at hlast
        by_cases hid : p'.id = s
        · rw [if_pos hid, Option.some_or] at hlast
          obtain rfl := Option.some.inj hlast
          refine ⟨_, List.getElem?_set_self hlt, ?_, hid, ?_⟩
          · rw [hp']
          · rw [hc', Client.addSubscription_subscriptions, hid, hp']
            exact AList.lookup_insert _
        · rw [if_neg hid, Option.none_or] at hlast
          obtain ⟨x, hx, htx, hxid, hlookup⟩ := h.held s j hlast
          have hij : j ≠ i := by
            rintro rfl
            obtain rfl := Option.some.inj (hm.symm.trans hx)
            rw [sender] at htx
            cases htx
          refine ⟨x, (List.getElem?_set_ne hij.symm).trans hx, htx, hxid, ?_⟩
          rw [hc', Client.addSubscription_subscriptions, lookup_insert_iff, if_neg (Ne.symm hid)]
          exact hlookup
  · intro s hlast
    rw [registeredLast_snoc] at hlast
    cases res with
    | some r =>
        rw [hturn.of_returned.1]
        exact h.free s hlast
    | none =>
        obtain ⟨tx, _, hc', _⟩ := hturn.of_registered
        rw [registrant_registered] at hlast
        by_cases hid : p'.id = s
        · rw [if_pos hid] at hlast
          cases hlast
        · rw [if_neg hid, Option.none_or] at hlast
          rw [hc', Client.addSubscription_subscriptions, lookup_insert_iff, if_neg (Ne.symm hid)]
          exact h.free s hlast

/-- A turn of the machine is a turn of its member. -/
theorem crowd_turn {i : Nat} (h : (crowd C α).step st (.turn i) = some (o, st')) :
    ∃ m res c' p', st.members[i]? = some m ∧ m.pubsub.turn st.client = some (res, c', p') ∧
      o = some ⟨i, res, if res.isNone then some p'.id else none⟩ ∧
      st' = { client := c', members := st.members.set i { m with pubsub := p' } } := by
  obtain ⟨m, hm, h⟩ := Option.bind_eq_some_iff.mp h
  obtain ⟨⟨res, c', p'⟩, hturn, h⟩ := Option.map_eq_some_iff.mp h
  obtain ⟨rfl, rfl⟩ := Prod.mk.inj h
  exact ⟨m, res, c', p', hm, hturn, rfl, rfl⟩

/-- What the client does otherwise leaves channels and subscriptions alone. -/
theorem crowd_other {op : Op} (h : (crowd C α).step st (.other op) = some (o, st')) :
    o = none ∧ st'.members = st.members ∧ st'.client.channels = st.client.channels ∧
      st'.client.subscriptions = st.client.subscriptions := by
  simp only [crowd] at h
  split at h
  · rename_i hop
    obtain ⟨⟨_, c'⟩, hstep, h⟩ := Option.map_eq_some_iff.mp h
    obtain ⟨rfl, rfl⟩ := Prod.mk.inj h
    exact ⟨rfl, rfl, Client.other_frame hop hstep⟩
  · cases h

theorem Kept.step (h : Kept tr st) (hstep : (crowd C α).step st e = some (o, st')) :
    Kept (tr ++ [(e, o)]) st' := by
  cases e with
  | frame host rs =>
      cases hstep
      refine h.quiet (Client.readFrame_subscriptions _ _) ?_
      intro p chan hchan
      exact ⟨_, hchan.readFrame rs⟩
  | subscribe params op env =>
      cases hstep
      exact h.subscribe params op env
  | turn i =>
      obtain ⟨m, res, c', p', hm, hturn, rfl, rfl⟩ := crowd_turn hstep
      obtain ⟨chan, hchan⟩ := h.placed i m hm
      exact h.turn hm (Pubsub.turns hchan.done hturn)
  | other op =>
      obtain ⟨client, members⟩ := st'
      obtain ⟨rfl, rfl, hchannels, hsubscriptions⟩ := crowd_other hstep
      refine h.quiet hsubscriptions ?_
      intro p chan hchan
      exact ⟨chan, hchan.congr_rfl hsubscriptions (congrArg (·[p.notifications]?) hchannels)⟩

theorem kept_of_run (hrun : (crowd C α).Run ⟨Client.new, []⟩ tr st) : Kept tr st :=
  hrun.invariant (I := Kept) kept_new fun _ h hstep => h.step hstep

end registrations

end Ethereyum
