/-
# `PubsubContract` — what a caller may expect of the polls of a `Pubsub`

A stream that returns `NotReady` has made sure that it will be polled again, one
that has nothing left to give returns `None`, and one that is subscribed has asked
for its notifications.  `poll` looks once at its channel and folds what it finds
into two results, so a value that does not decode and a channel that is closed are
both `NotReady`.  It overwrites its state with `Subscribed` before it polls the
future of the subscription id, and the exit by `?` leaves it there.

`lawful_iff_clear` is about the polls after the registration, `registered_iff` about
the ones before.
-/
import Ethereyum.Subscribers

namespace Ethereyum

/-! ## The life of a registered `Pubsub` -/

/-- The read loop dispatches a response, another `Pubsub` registers, a sender goes out
of scope, or the owner polls. -/
inductive LifeEvent where
  | dispatch (r : RpcResponse)
  | addSubscription (id : Nat) (tx : ChannelId)
  | dropSender (ch : ChannelId)
  | poll

/-- A client and one of its `Pubsub`s. -/
def lifeMachine (α : Type) :
    Mealy (Client × Pubsub α) LifeEvent (Option (Poll (Option α))) where
  step s
    | .dispatch r => some (none, s.1.readOne r, s.2)
    | .addSubscription id tx => some (none, s.1.addSubscription id tx, s.2)
    | .dropSender ch => some (none, { s.1 with channels := s.1.channels.dropSender ch }, s.2)
    | .poll => (s.2.poll s.1).map fun r => (some r.1, r.2)

theorem Client.readOne_channels_length (c : Client) (r : RpcResponse) :
    (c.readOne r).channels.length = c.channels.length := by
  cases r with
  | subscription s w => exact c.notify_channels_length s w
  | success id v => simp [readOne]
  | failure id e => simp [readOne]

namespace Channels

/-- A sender of the channel is left, and nothing is queued. -/
def Idle (cs : Channels) (ch : ChannelId) : Prop :=
  ∃ chan, cs[ch]? = some chan ∧ chan.tx = true ∧ chan.queue = []

/-- No sender of the channel is left, and nothing is queued. -/
def Drained (cs : Channels) (ch : ChannelId) : Prop :=
  ∃ chan, cs[ch]? = some chan ∧ chan.tx = false ∧ chan.queue = []

end Channels

namespace Pubsub
variable {α : Type}

/-- The `Pubsub` is registered, and listens to its channel. -/
structure Listens (s : Client × Pubsub α) : Prop where
  done : s.2.done = false
  state : s.2.state = .subscribed
  channel : s.2.notifications < s.1.channels.length

/-- A poll that returns `NotReady` leaves its channel open and empty, and one that
finds it closed and drained returns `None`. -/
def Lawful (s : Client × Pubsub α) : LifeEvent → Prop
  | .poll => ∀ o s', (lifeMachine α).step s .poll = some (some o, s') →
      (o = .ok .notReady → s'.1.channels.Idle s'.2.notifications) ∧
      (s.1.channels.Drained s.2.notifications → o = .ok (.ready none))
  | _ => True

/-- A poll that returns `NotReady` has found the channel not ready, which makes the
channel wake the task at the next arrival. -/
def Wakes (s : Client × Pubsub α) : LifeEvent → Prop
  | .poll => ∀ o s', (lifeMachine α).step s .poll = some (some o, s') →
      o = .ok .notReady → (s.1.channels.poll s.2.notifications).1 = .notReady
  | _ => True

/-- An empty channel is open, and a value that does not decode is the last one of an
open channel. -/
def Clear (s : Client × Pubsub α) : LifeEvent → Prop
  | .poll => ∀ chan, s.1.channels[s.2.notifications]? = some chan →
      (chan.queue = [] → chan.tx = true) ∧
      ∀ v queue e, chan.queue = v :: queue → s.2.de v = .error e →
        queue = [] ∧ chan.tx = true
  | _ => True

/-- An empty channel is open, and the oldest value of one that is not decodes. -/
def Decodes (s : Client × Pubsub α) : LifeEvent → Prop
  | .poll => ∀ chan, s.1.channels[s.2.notifications]? = some chan →
      (chan.queue = [] → chan.tx = true) ∧
      ∀ v queue e, chan.queue = v :: queue → s.2.de v ≠ .error e
  | _ => True

section life
variable {s s' : Client × Pubsub α} {e : LifeEvent} {o : Option (Poll (Option α))}
  {tr : List (LifeEvent × Option (Poll (Option α)))} {chan : Channel}

theorem Listens.step_poll (h : Listens s) :
    (lifeMachine α).step s .poll =
      some (some (pollSubscribed s.1 s.2).1,
        { s.1 with channels := (s.1.channels.poll s.2.notifications).2 }, s.2) := by
  have hpoll : s.2.poll s.1 = some (pollSubscribed s.1 s.2) := by
    simp [Pubsub.poll, h.done, h.state]
  simp only [lifeMachine, hpoll, Option.map_some, pollSubscribed_snd]

/-- Whatever happens, a registered `Pubsub` keeps listening. -/
theorem Listens.step (h : Listens s) (hstep : (lifeMachine α).step s e = some (o, s')) :
    Listens s' := by
  cases e with
  | dispatch r =>
      cases hstep
      exact { h with channel := (s.1.readOne_channels_length r).symm ▸ h.channel }
  | addSubscription id tx =>
      cases hstep
      exact { h with channel := by simpa using h.channel }
  | dropSender ch =>
      cases hstep
      exact { h with channel := by simpa [Channels.dropSender] using h.channel }
  | poll =>
      rw [h.step_poll] at hstep
      cases hstep
      obtain ⟨chan, hchan⟩ : ∃ chan, s.1.channels[s.2.notifications]? = some chan :=
        ⟨_, List.getElem?_eq_getElem h.channel⟩
      exact { h with channel := by simpa [Channels.poll_eq hchan] using h.channel }

theorem listens_of_run (h : Listens s) (hrun : (lifeMachine α).Run s tr s') : Listens s' :=
  hrun.invariant (I := fun _ s => Listens s) h fun _ hs hstep => Listens.step hs hstep

/-- What a poll that listens to `chan` returns. -/
def reading (p : Pubsub α) (chan : Channel) : Poll (Option α) :=
  .ok (match chan.queue with
    | [] => .notReady
    | v :: _ => match p.de v with
      | .ok t => .ready (some t)
      | .error _ => .notReady)

theorem reading_notReady_iff {p : Pubsub α} :
    reading p chan = .ok .notReady ↔
      chan.queue = [] ∨ ∃ v queue e, chan.queue = v :: queue ∧ p.de v = .error e := by
  cases hqueue : chan.queue with
  | nil => simp [reading, hqueue]
  | cons v queue => cases hde : p.de v <;> simp [reading, hqueue, hde]

/-- A poll returns what it reads, and takes the oldest value off the queue. -/
theorem Listens.poll_eq (h : Listens s) (hchan : s.1.channels[s.2.notifications]? = some chan) :
    ∃ cs, (lifeMachine α).step s .poll =
        some (some (reading s.2 chan), { s.1 with channels := cs }, s.2) ∧
      cs[s.2.notifications]? = some { chan with queue := chan.queue.tail } :=
  ⟨_, h.step_poll.trans (by rw [pollSubscribed_fst hchan]; rfl), Channels.poll_self hchan⟩

theorem Listens.exists_channel (h : Listens s) :
    ∃ chan, s.1.channels[s.2.notifications]? = some chan :=
  ⟨_, List.getElem?_eq_getElem h.channel⟩

/-- A poll keeps the contract exactly when the channel it looks at is clear. -/
theorem Listens.lawful_iff (h : Listens s) (e : LifeEvent) : Lawful s e ↔ Clear s e := by
  cases e with
  | dispatch r => exact Iff.rfl
  | addSubscription id tx => exact Iff.rfl
  | dropSender ch => exact Iff.rfl
  | poll =>
      obtain ⟨chan, hchan⟩ := h.exists_channel
      obtain ⟨cs, hstep, hleft⟩ := h.poll_eq hchan
      constructor
      · intro hlawful chan' hchan'
        obtain rfl : chan = chan' := Option.some.inj (hchan.symm.trans hchan')
        have hidle := (hlawful _ _ hstep).1
        have hopen : reading s.2 chan = .ok .notReady →
            chan.tx = true ∧ chan.queue.tail = [] := by
          intro hnot
          obtain ⟨_, hfound, hidle⟩ := hidle hnot
          obtain rfl := Option.some.inj (hleft.symm.trans hfound)
          exact hidle
        refine ⟨fun hempty => (hopen (reading_notReady_iff.mpr (Or.inl hempty))).1, ?_⟩
        intro v queue e hqueue hde
        obtain ⟨htx, htail⟩ :=
          hopen (reading_notReady_iff.mpr (Or.inr ⟨v, queue, e, hqueue, hde⟩))
        rw [hqueue] at htail
        exact ⟨htail, htx⟩
      · intro hclear o s' hstep'
        rw [hstep] at hstep'
        cases hstep'
        obtain ⟨hopen, hlast⟩ := hclear chan hchan
        refine ⟨?_, ?_⟩
        · intro hnot
          refine ⟨_, hleft, ?_⟩
          rcases reading_notReady_iff.mp hnot with hempty | ⟨v, queue, e, hqueue, hde⟩
          · exact ⟨hopen hempty, by rw [hempty]; rfl⟩
          · obtain ⟨hrest, htx⟩ := hlast v queue e hqueue hde
            exact ⟨htx, by rw [hqueue]; exact hrest⟩
        · rintro ⟨chan', hchan', hclosed, hempty⟩
          obtain rfl := Option.some.inj (hchan.symm.trans hchan')
          rw [hopen hempty] at hclosed
          cases hclosed

/-- A poll keeps the contract and is woken again exactly when the channel it looks at
has a value that decodes, or is open and empty. -/
theorem Listens.wakes_iff (h : Listens s) (e : LifeEvent) :
    Lawful s e ∧ Wakes s e ↔ Decodes s e := by
  rw [h.lawful_iff]
  cases e with
  | dispatch r => exact and_self_iff
  | addSubscription id tx => exact and_self_iff
  | dropSender ch => exact and_self_iff
  | poll =>
      obtain ⟨chan, hchan⟩ := h.exists_channel
      obtain ⟨cs, hstep, _⟩ := h.poll_eq hchan
      constructor
      · rintro ⟨hclear, hwakes⟩ chan' hchan'
        obtain rfl : chan = chan' := Option.some.inj (hchan.symm.trans hchan')
        refine ⟨(hclear chan hchan).1, ?_⟩
        intro v queue e hqueue hde
        have hfound := hwakes _ _ hstep
          (reading_notReady_iff.mpr (Or.inr ⟨v, queue, e, hqueue, hde⟩))
        rw [Channels.poll_eq hchan, Channels.head, hqueue] at hfound
        cases hfound
      · intro hdecodes
        refine ⟨?_, ?_⟩
        · intro chan' hchan'
          obtain ⟨hopen, hgood⟩ := hdecodes chan' hchan'
          exact ⟨hopen, fun v queue e hqueue hde => absurd hde (hgood v queue e hqueue)⟩
        · intro o s' hstep' hnot
          rw [hstep] at hstep'
          cases hstep'
          obtain ⟨hopen, hgood⟩ := hdecodes chan hchan
          rcases reading_notReady_iff.mp hnot with hempty | ⟨v, queue, e, hqueue, hde⟩
          · rw [Channels.poll_eq hchan, Channels.head, hempty]
            exact if_pos (hopen hempty)
          · exact absurd hde (hgood v queue e hqueue)

/-- **In every run after the registration, all polls keep the contract exactly when
all of them look at a clear channel; and a task is woken after each of them that
returns `NotReady` exactly when no poll takes a value that does not decode.** -/
theorem lawful_iff_clear (h : Listens s) :
    ((lifeMachine α).Along Lawful s tr ↔ (lifeMachine α).Along Clear s tr) ∧
    ((lifeMachine α).Along (fun t e => Lawful t e ∧ Wakes t e) s tr ↔
      (lifeMachine α).Along Decodes s tr) :=
  ⟨Mealy.along_congr fun e hpre => (listens_of_run h hpre).lawful_iff e,
    Mealy.along_congr fun e hpre => (listens_of_run h hpre).wakes_iff e⟩

end life

/-- A `Pubsub` of numbers that registered the channel 0 under the id 5. -/
def registeredNumbers : Pubsub Nat :=
  { id := 5, state := .subscribed, notifications := 0, tx := none, de := deUsize, done := false }

/-- Its client, when the channel is `chan`. -/
def clientOf (chan : Channel) : Client := { Client.new with channels := [chan] }

/-- It hears a number, waits for the next one, and that comes in before the channel is closed. -/
def twoNumbers : List LifeEvent :=
  [.poll, .dispatch (.subscription 5 (.string "0x2a")), .poll, .poll,
   .dispatch (.subscription 5 (.string "0x2b")), .dropSender 0, .poll]

/-- Its client, with the subscription. -/
def listening : Client × Pubsub Nat :=
  ((clientOf ⟨[], true, true⟩).addSubscription 5 0, registeredNumbers)

/-- Whether an empty channel is open, and the oldest value of one that is not decodes. -/
def decodesNext (s : Client × Pubsub Nat) : LifeEvent → Bool
  | .poll =>
      match s.1.channels[s.2.notifications]? with
      | some ⟨[], tx, _⟩ => tx
      | some ⟨v :: _, _, _⟩ => match s.2.de v with
        | .ok _ => true
        | .error _ => false
      | none => true
  | _ => true

theorem decodes_of_decodesNext {s : Client × Pubsub Nat} {e : LifeEvent}
    (h : decodesNext s e = true) : Decodes s e := by
  cases e with
  | poll =>
      rintro ⟨queue, tx, rx⟩ hchan
      simp only [decodesNext, hchan] at h
      cases queue with
      | nil =>
          refine ⟨fun _ => h, ?_⟩
          rintro v queue e ⟨⟩
      | cons v queue =>
          refine ⟨by simp, ?_⟩
          rintro _ _ e ⟨⟩ hde
          simp [hde] at h
  | _ => trivial

/-- Two numbers, with polls that find the channel empty, and a last one that finds it closed, keep
the contract. -/
theorem numbers_lawful : ∃ tr s, (lifeMachine Nat).exec listening twoNumbers = some (tr, s) ∧
    tr.map Prod.snd = [some (.ok .notReady), none, some (.ok (.ready (some 42))),
      some (.ok .notReady), none, none, some (.ok (.ready (some 43)))] ∧
    (lifeMachine Nat).Along (fun t e => Lawful t e ∧ Wakes t e) listening tr := by
  have hexec : (lifeMachine Nat).exec listening twoNumbers = some (_, _) := rfl
  refine ⟨_, _, hexec, rfl, (lawful_iff_clear ⟨rfl, rfl, Nat.one_pos⟩).2.mpr ?_⟩
  exact Mealy.along_of_checks (fun _ _ h => decodes_of_decodesNext h) hexec (by decide +kernel)

/-- A poll that takes a value which does not decode returns `NotReady` with another
notification waiting, and a poll of a channel that is closed and drained does not
return `None`. -/
theorem not_lawful :
    (∃ s', (lifeMachine Nat).step
        (clientOf ⟨[.null, .string "0x2a"], true, true⟩, registeredNumbers) .poll =
        some (some (.ok .notReady), s') ∧ s'.1.queued 0 = [.string "0x2a"]) ∧
    ∃ s', (lifeMachine Nat).step (clientOf ⟨[], false, true⟩, registeredNumbers) .poll =
      some (some (.ok .notReady), s') :=
  ⟨⟨_, rfl, rfl⟩, _, rfl⟩

/-! ## The way to the registration -/

/-- `Pubsub::new`. -/
def new (idFuture : YumFuture Nat) (rx : ChannelId) (tx : Option ChannelId)
    (de : Value → Except Error α) : Pubsub α :=
  { id := 0, state := .subscribing idFuture, notifications := rx, tx, de, done := false }

/-- A `Pubsub`, polled again and again: each poll finds the client in some state and
leaves it in another. -/
def pollMachine (α : Type) : Mealy (Pubsub α) Client (Poll (Option α) × Client) where
  step p c := (p.poll c).map fun r => ((r.1, r.2.1), r.2.2)

/-- The poll inserted the sender `tx` into the client's subscriptions under `id`. -/
def Inserts (id : Nat) (tx : ChannelId) (poll : Client × Poll (Option α) × Client) : Prop :=
  poll.2.2.subscriptions = (poll.1.addSubscription id tx).subscriptions

/-- The future of the subscription id does not fail in this poll. -/
def IdComes (p : Pubsub α) (c : Client) : Prop :=
  ∀ fut e, p.state = .subscribing fut → (fut.poll c.oneshots).1 ≠ .error e

section registration
variable {c c' : Client} {p p' : Pubsub α} {o : Poll (Option α)} {rx tx : ChannelId}
  {fut : YumFuture Nat} {op : Value → Except Error α}
  {tr : List (Client × Poll (Option α) × Client)}

/-- `Polls c p c' p'`: what a poll of a `Pubsub` that is not done can do. -/
inductive Polls (c : Client) (p : Pubsub α) : Client → Pubsub α → Prop
  | fails (fut : YumFuture Nat) (e : Error) (asking : p.state = .subscribing fut)
      (answer : (fut.poll c.oneshots).1 = .error e) :
      Polls c p c { p with state := .subscribed }
  | waits (fut fut' : YumFuture Nat) (asking : p.state = .subscribing fut)
      (answer : (fut.poll c.oneshots).1 = .ok .notReady) :
      Polls c p c { p with state := .subscribing fut' }
  | registers (fut : YumFuture Nat) (id : Nat) (tx : ChannelId)
      (asking : p.state = .subscribing fut)
      (answer : (fut.poll c.oneshots).1 = .ok (.ready id)) (sender : p.tx = some tx)
      (channels : Channels) :
      Polls c p { c.addSubscription id tx with channels }
        { p with id, tx := none, state := .subscribed }
  | reads (listening : p.state = .subscribed) (channels : Channels) :
      Polls c p { c with channels } p

theorem polls (hdone : p.done = false) (h : p.poll c = some (o, c', p')) : Polls c p c' p' := by
  rw [poll, if_neg (Bool.eq_false_iff.mp hdone)] at h
  cases hstate : p.state with
  | subscribed =>
      simp only [hstate, Option.some.injEq] at h
      have hsnd := pollSubscribed_snd c p
      rw [h, Prod.mk.injEq] at hsnd
      obtain ⟨rfl, rfl⟩ := hsnd
      exact .reads hstate _
  | subscribing fut =>
      simp only [hstate] at h
      cases hfut : fut.poll c.oneshots with
      | mk answer fut' =>
          have hanswer : (fut.poll c.oneshots).1 = answer := by rw [hfut]
          rw [hfut] at h
          cases answer with
          | error e =>
              cases h
              exact .fails fut e hstate hanswer
          | ok a =>
              cases a with
              | notReady =>
                  cases h
                  exact .waits fut fut' hstate hanswer
              | ready id =>
                  cases htx : p.tx with
                  | none => simp [htx] at h
                  | some tx =>
                      simp only [htx, Option.some.injEq] at h
                      have hsnd := pollSubscribed_snd (c.addSubscription id tx)
                        { p with id, tx := none, state := .subscribed }
                      rw [h, Prod.mk.injEq] at hsnd
                      obtain ⟨rfl, rfl⟩ := hsnd
                      exact .registers fut id tx hstate hanswer htx _

theorem pollMachine_step :
    (pollMachine α).step p c = some ((o, c'), p') ↔ p.poll c = some (o, c', p') := by
  simp only [pollMachine, Option.map_eq_some_iff, Prod.mk.injEq]
  constructor
  · rintro ⟨⟨_, _, _⟩, hpoll, ⟨rfl, rfl⟩, rfl⟩
    exact hpoll
  · intro hpoll
    exact ⟨_, hpoll, ⟨rfl, rfl⟩, rfl⟩

/-- While the `Pubsub` asks for its id it has the sender. -/
structure Keeps (tx : ChannelId) (p : Pubsub α) : Prop where
  done : p.done = false
  sender : ∀ fut, p.state = .subscribing fut → p.tx = some tx

theorem Keeps.polls (h : Keeps tx p) (hpolls : Polls c p c' p') : Keeps tx p' := by
  cases hpolls with
  | fails fut e asking answer => exact ⟨h.done, fun fut' hstate => by cases hstate⟩
  | waits fut fut' asking answer => exact ⟨h.done, fun _ _ => h.sender fut asking⟩
  | registers fut id tx asking answer sender channels =>
      exact ⟨h.done, fun fut' hstate => by cases hstate⟩
  | reads listening channels => exact h

/-- The sender is still there, or a poll inserted it. -/
theorem kept_or_inserted
    (hrun : (pollMachine α).Run (new fut rx (some tx) op) tr p) :
    Keeps tx p ∧ (p.tx = some tx ∨ (p.tx = none ∧ ∃ poll ∈ tr, Inserts p.id tx poll)) := by
  refine hrun.invariant (I := fun tr p => Keeps tx p ∧
    (p.tx = some tx ∨ (p.tx = none ∧ ∃ poll ∈ tr, Inserts p.id tx poll)))
    ⟨⟨rfl, fun _ _ => rfl⟩, Or.inl rfl⟩ ?_
  rintro tr q q' c ⟨o, c'⟩ _ ⟨hkeeps, hsender⟩ hstep
  have hpolls := Pubsub.polls hkeeps.done (pollMachine_step.mp hstep)
  refine ⟨hkeeps.polls hpolls, ?_⟩
  -- a poll that leaves sender and id as they were
  have hstay : q.tx = some tx ∨
      (q.tx = none ∧ ∃ poll ∈ tr ++ [(c, o, c')], Inserts q.id tx poll) := by
    refine hsender.imp_right ?_
    rintro ⟨hnone, poll, hmem, hinserts⟩
    exact ⟨hnone, poll, List.mem_append_left _ hmem, hinserts⟩
  cases hpolls with
  | fails fut e asking answer => exact hstay
  | waits fut fut' asking answer => exact hstay
  | reads listening channels => exact hstay
  | registers fut id tx' asking answer sender channels =>
      obtain rfl : tx = tx' := Option.some.inj ((hkeeps.sender fut asking).symm.trans sender)
      exact Or.inr ⟨rfl, _, List.mem_append_right _ List.mem_cons_self, rfl⟩

/-- A `Pubsub` in state `Subscribed` has given its sender away. -/
def Taken (p : Pubsub α) : Prop := p.state = .subscribed → p.tx = none

theorem idComes_of_ok {a : Async Nat} (hasking : p.state = .subscribing fut)
    (hanswer : (fut.poll c.oneshots).1 = .ok a) : IdComes p c := by
  intro fut' e hstate hfails
  rw [hasking] at hstate
  cases hstate
  rw [hanswer] at hfails
  cases hfails

/-- A poll takes a `Pubsub` to the state `Subscribed` with its sender still there
exactly when the future of the id fails. -/
theorem Polls.taken_iff (hpolls : Polls c p c' p') (h : Keeps tx p) (htaken : Taken p) :
    Taken p' ↔ IdComes p c := by
  cases hpolls with
  | fails fut e asking answer =>
      refine iff_of_false ?_ fun hid => hid fut e asking answer
      intro htaken'
      have hnone := htaken' rfl
      rw [show p.tx = some tx from h.sender fut asking] at hnone
      cases hnone
  | waits fut fut' asking answer =>
      exact iff_of_true (fun hstate => by cases hstate) (idComes_of_ok asking answer)
  | registers fut id tx asking answer sender channels =>
      exact iff_of_true (fun _ => rfl) (idComes_of_ok asking answer)
  | reads listening channels =>
      refine iff_of_true htaken ?_
      intro fut e hstate
      rw [listening] at hstate
      cases hstate

/-- **After every poll of a run a `Pubsub` that is in state `Subscribed` is
registered, exactly when the future of its id fails in none of the polls.** -/
theorem registered_iff (hrun : (pollMachine α).Run (new fut rx (some tx) op) tr p) :
    (∀ pre post q, tr = pre ++ post → (pollMachine α).Run (new fut rx (some tx) op) pre q →
      q.state = .subscribed → q.tx = none ∧ ∃ poll ∈ pre, Inserts q.id tx poll) ↔
    (pollMachine α).Along IdComes (new fut rx (some tx) op) tr := by
  have hiff := hrun.always_iff (P := fun q => Keeps tx q ∧ Taken q) (C := IdComes) ?_
  · have hstart : Keeps tx (new fut rx (some tx) op) ∧ Taken (new fut rx (some tx) op) :=
      ⟨⟨rfl, fun _ _ => rfl⟩, fun hstate => by cases hstate⟩
    refine Iff.trans ?_ (hiff.trans (and_iff_right hstart))
    constructor
    · intro hregistered pre post q htr hpre
      exact ⟨(kept_or_inserted hpre).1, fun hstate => (hregistered pre post q htr hpre hstate).1⟩
    · intro htaken pre post q htr hpre hstate
      have hnone := (htaken pre post q htr hpre).2 hstate
      rcases (kept_or_inserted hpre).2 with hkept | hinserted
      · rw [hnone] at hkept
        cases hkept
      · exact hinserted
  · rintro q q' c ⟨o, c'⟩ ⟨hkeeps, htaken⟩ hstep
    have hpolls := Pubsub.polls hkeeps.done (pollMachine_step.mp hstep)
    exact (and_iff_right (hkeeps.polls hpolls)).trans (hpolls.taken_iff hkeeps htaken)

end registration

/-- A client whose first oneshot is `slot`, and with one channel. -/
def answering (slot : Slot) : Client :=
  { Client.new with oneshots := [slot], channels := [⟨[], true, true⟩] }

/-- A `Pubsub` of numbers that waits for its id. -/
def askingNumbers : Pubsub Nat := new (.waiting 0 deUsize) 0 (some 0) deUsize

/-- Two polls before the answer, the one that finds the id 5, and one that finds a notification. -/
def confirmedPolls : List Client :=
  [answering .empty, answering .empty, answering (.sent (.ok (.string "0x5"))),
   { answering (.sent (.ok (.string "0x5"))) with channels := [⟨[.string "0x2a"], true, true⟩] }]

/-- Whether the future of the subscription id does not fail in this poll. -/
def idComes (p : Pubsub Nat) (c : Client) : Bool :=
  match p.state with
  | .subscribing fut => match (fut.poll c.oneshots).1 with
    | .ok _ => true
    | .error _ => false
  | .subscribed => true

/-- The `Pubsub` that gets the id 5 is registered, and stays so. -/
theorem confirmed_stays : ∃ tr p, (pollMachine Nat).exec askingNumbers confirmedPolls =
      some (tr, p) ∧
    tr.map (fun e => e.2.1) = [.ok .notReady, .ok .notReady, .ok .notReady,
      .ok (.ready (some 42))] ∧
    ∀ pre post q, tr = pre ++ post → (pollMachine Nat).Run askingNumbers pre q →
      q.state = .subscribed → q.tx = none ∧ ∃ poll ∈ pre, Inserts q.id 0 poll := by
  have hexec : (pollMachine Nat).exec askingNumbers confirmedPolls = some (_, _) := rfl
  refine ⟨_, _, hexec, rfl, (registered_iff (Mealy.run_of_exec hexec)).mpr ?_⟩
  refine Mealy.along_of_checks (p := idComes) ?_ hexec (by decide +kernel)
  intro p c h fut e hstate hfails
  simp [idComes, hstate, hfails] at h

/-- The `Pubsub` whose request the server refuses is left in state `Subscribed` with
its sender. -/
theorem refused_not_registered : ∃ tr p,
    (pollMachine Nat).Run askingNumbers tr p ∧
    tr.map Prod.fst = [answering (.sent (.error (.rpcError "refused")))] ∧
    p.state = .subscribed ∧ p.tx = some 0 := by
  have hrun : (pollMachine Nat).Run askingNumbers _ _ :=
    Mealy.run_of_exec (show (pollMachine Nat).exec askingNumbers
      [answering (.sent (.error (.rpcError "refused")))] = some (_, _) from rfl)
  exact ⟨_, _, hrun, rfl, rfl, rfl⟩

end Pubsub

end Ethereyum
