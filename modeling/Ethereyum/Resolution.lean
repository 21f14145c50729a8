/-
# `Resolution` — a future resolves once, when its oneshot is filled and not before

`YumFuture::poll` moves the state out of the future and puts it back when nothing
has arrived.  Here a future is polled again and again while senders use their
channels or go out of scope, in any order.  `resolves_once` says what every one of
the polls returns: nothing before the event on its own channel, the outcome of that
event at the first poll after it, and nothing from then on.

The deserializer is a function, and to count how often it is applied `pollHanded`
also lists the values that a poll hands to it.
-/
import Ethereyum.Future
import Ethereyum.Lib.Mealy

namespace Ethereyum

/-! ## Polls that tell what they hand to the deserializer -/

/-- What a poll returned, and the values it handed to the deserializer. -/
structure PollReport (α : Type) where
  result : Poll α
  handed : List Value

/-- A poll that found nothing. -/
def PollReport.idle {α : Type} : PollReport α := ⟨.ok .notReady, []⟩

namespace YumFuture
variable {α : Type}

/-- `pollWaiting`, with what it hands to the deserializer. -/
def pollWaitingHanded (o : Oneshots) (rx : Oneshot) (de : Value → Except Error α)
    (keep : YumFuture α) : PollReport α × YumFuture α :=
  match o.poll rx with
  | .error e => (⟨.error e, []⟩, .complete)
  | .ok .notReady => (.idle, keep)
  | .ok (.ready (.error e)) => (⟨.error e, []⟩, .complete)
  | .ok (.ready (.ok v)) =>
      match de v with
      | .ok t => (⟨.ok (.ready t), [v]⟩, .complete)
      | .error e => (⟨.error e, [v]⟩, .complete)

/-- `YumFuture::poll`, with what it hands to the deserializer. -/
def pollHanded (o : Oneshots) : YumFuture α → PollReport α × YumFuture α
  | .waiting rx de => pollWaitingHanded o rx de (.waiting rx de)
  | .waitingFn rx de => pollWaitingHanded o rx de (.waitingFn rx de)
  | .now t => (⟨.ok (.ready t), []⟩, .complete)
  | .complete => (.idle, .complete)
  | .error e => (⟨.error e, []⟩, .complete)

theorem pollWaitingHanded_eq (o : Oneshots) (rx : Oneshot) (de : Value → Except Error α)
    (keep : YumFuture α) :
    ((pollWaitingHanded o rx de keep).1.result, (pollWaitingHanded o rx de keep).2) =
      pollWaiting o rx de keep := by
  unfold pollWaitingHanded pollWaiting
  cases hpoll : o.poll rx with
  | error e => rfl
  | ok a =>
      cases a with
      | notReady => rfl
      | ready rv =>
          cases rv with
          | error e => rfl
          | ok v => cases hde : de v <;> simp [Except.bind, hde]

/-- It is the poll of the future. -/
theorem pollHanded_eq (o : Oneshots) (f : YumFuture α) :
    ((f.pollHanded o).1.result, (f.pollHanded o).2) = f.poll o := by
  cases f with
  | waiting rx de => exact pollWaitingHanded_eq o rx de _
  | waitingFn rx de => exact pollWaitingHanded_eq o rx de _
  | now t => rfl
  | complete => rfl
  | error e => rfl

/-- A poll hands out a value at most, and is the last to do so. -/
theorem handed_cases (o : Oneshots) (f : YumFuture α) :
    (f.pollHanded o).1.handed = [] ∨
    ((f.pollHanded o).1.handed.length = 1 ∧ (f.pollHanded o).2 = .complete) := by
  have hwaiting : ∀ rx de keep, (pollWaitingHanded o rx de keep : PollReport α × _).1.handed = [] ∨
      ((pollWaitingHanded o rx de keep).1.handed.length = 1 ∧
        (pollWaitingHanded o rx de keep).2 = .complete) := by
    intro rx de keep
    unfold pollWaitingHanded
    split
    · exact Or.inl rfl
    · exact Or.inl rfl
    · exact Or.inl rfl
    · split
      · exact Or.inr ⟨rfl, rfl⟩
      · exact Or.inr ⟨rfl, rfl⟩
  cases f with
  | waiting rx de => exact hwaiting rx de _
  | waitingFn rx de => exact hwaiting rx de _
  | now t => exact Or.inl rfl
  | complete => exact Or.inl rfl
  | error e => exact Or.inl rfl

end YumFuture

/-! ## A future among the channels -/

/-- A sender is used or goes out of scope, or the owner polls the future. -/
inductive FutureEvent where
  | send (tx : Oneshot) (rv : Except Error Value)
  | dropSender (tx : Oneshot)
  | poll

/-- The oneshot channels and one future; a sender that was used is gone. -/
def futureMachine (α : Type) :
    Mealy (Oneshots × YumFuture α) FutureEvent (Option (PollReport α)) where
  step s
    | .send tx rv =>
        match s.1[tx]? with
        | some .empty => some (none, s.1.send tx rv, s.2)
        | _ => none
    | .dropSender tx =>
        match s.1[tx]? with
        | some .empty => some (none, s.1.dropSender tx, s.2)
        | _ => none
    | .poll => some (some (s.2.pollHanded s.1).1, s.1, (s.2.pollHanded s.1).2)

/-- What an event puts into the channel `rx`. -/
def FutureEvent.fills (rx : Oneshot) : FutureEvent → Option Slot
  | .send tx rv => if tx = rx then some (.sent rv) else none
  | .dropSender tx => if tx = rx then some .dropped else none
  | .poll => none

/-- What a future that decodes with `t` makes of what its channel holds. -/
def Slot.outcome {α : Type} (t : Value → Except Error α) : Slot → Poll α
  | .empty => .ok .notReady
  | .sent (.ok v) => (t v).map .ready
  | .sent (.error e) => .error e
  | .dropped => .error .canceled

/-- What it hands to `t`. -/
def Slot.handed : Slot → List Value
  | .sent (.ok v) => [v]
  | _ => []

/-- No poll is in the trace. -/
def Unpolled {ο : Type} (tr : List (FutureEvent × ο)) : Prop := ∀ e ∈ tr, e.1 ≠ .poll

/-- The values that the polls of a trace handed to the deserializer. -/
def handedOut {α : Type} (tr : List (FutureEvent × Option (PollReport α))) : List Value :=
  tr.flatMap fun e => (e.2.map (·.handed)).getD []

namespace YumFuture
variable {α : Type}

/-- A future that decodes with `t` what comes through `rx`: each poll before the event
on `rx` finds nothing and leaves the future as it was, the first one after it has the
outcome of the event, and each later one finds nothing.  `t` is applied once at most. -/
structure Resolves (t : Value → Except Error α) (rx : Oneshot) (s₀ : Oneshots × YumFuture α) :
    Prop where
  early : ∀ pre s, (futureMachine α).Run s₀ pre s → (∀ e ∈ pre, e.1.fills rx = none) →
    s.2 = s₀.2 ∧ (futureMachine α).step s .poll = some (some .idle, s)
  resolve : ∀ pre e o post slot s, (futureMachine α).Run s₀ (pre ++ (e, o) :: post) s →
    e.fills rx = some slot → Unpolled post →
    (futureMachine α).step s .poll = some (some ⟨slot.outcome t, slot.handed⟩, s.1, .complete)
  late : ∀ pre e o post slot s, (futureMachine α).Run s₀ (pre ++ (e, o) :: post) s →
    e.fills rx = some slot → ¬ Unpolled post →
    (futureMachine α).step s .poll = some (some .idle, s)
  once : ∀ tr s, (futureMachine α).Run s₀ tr s → (handedOut tr).length ≤ 1

/-- A future that has its result: the first poll returns it, and each later one finds
nothing. -/
structure Yields (r : Poll α) (s₀ : Oneshots × YumFuture α) : Prop where
  first : ∀ pre s, (futureMachine α).Run s₀ pre s → Unpolled pre →
    (futureMachine α).step s .poll = some (some ⟨r, []⟩, s.1, .complete)
  late : ∀ pre s, (futureMachine α).Run s₀ pre s → ¬ Unpolled pre →
    (futureMachine α).step s .poll = some (some .idle, s)

end YumFuture

/-! ## One event -/

section step
variable {α : Type} {s s' : Oneshots × YumFuture α} {e : FutureEvent}
  {o : Option (PollReport α)} {rx : Oneshot} {slot : Slot}

/-- `Happens s e o s'`: the future is polled, or an empty channel is filled. -/
inductive Happens (s : Oneshots × YumFuture α) :
    FutureEvent → Option (PollReport α) → Oneshots × YumFuture α → Prop
  | poll : Happens s .poll (some (s.2.pollHanded s.1).1) (s.1, (s.2.pollHanded s.1).2)
  | fill (e : FutureEvent) (tx : Oneshot) (slot : Slot) (other : e ≠ .poll)
      (empty : s.1[tx]? = some .empty) (filled : slot ≠ .empty)
      (fills : ∀ rx, e.fills rx = if tx = rx then some slot else none) :
      Happens s e none (s.1.set tx slot, s.2)

theorem happens (hstep : (futureMachine α).step s e = some (o, s')) : Happens s e o s' := by
  cases e with
  | poll =>
      cases hstep
      exact .poll
  | send tx rv =>
      simp only [futureMachine] at hstep
      split at hstep
      · rename_i hempty
        have hsend : s.1.send tx rv = s.1.set tx (.sent rv) := by
          simp [Oneshots.send, Oneshots.get, hempty]
        cases hstep
        rw [hsend]
        exact .fill _ tx (.sent rv) (by simp) hempty (by simp) fun rx => rfl
      · cases hstep
  | dropSender tx =>
      simp only [futureMachine] at hstep
      split at hstep
      · rename_i hempty
        have hdrop : s.1.dropSender tx = s.1.set tx .dropped := by
          simp [Oneshots.dropSender, Oneshots.get, hempty]
        cases hstep
        rw [hdrop]
        exact .fill _ tx .dropped (by simp) hempty (by simp) fun rx => rfl
      · cases hstep

/-- A channel is filled only when it is empty, and holds then what it was filled with. -/
theorem Happens.filled (h : Happens s e o s') (hfills : e.fills rx = some slot) :
    s.1.get rx = .empty ∧ s'.1.get rx = slot ∧ slot ≠ .empty ∧ s'.2 = s.2 := by
  cases h with
  | poll => cases hfills
  | fill _ tx slot' other empty filled fills =>
      rw [fills, Option.ite_none_right_eq_some] at hfills
      obtain ⟨rfl, heq⟩ := hfills
      obtain rfl := Option.some.inj heq
      obtain ⟨hlt, _⟩ := List.getElem?_eq_some_iff.mp empty
      exact ⟨by simp [Oneshots.get, empty], by simp [Oneshots.get, hlt], filled, rfl⟩

/-- Nothing else changes what a channel holds. -/
theorem Happens.unfilled (h : Happens s e o s') (hfills : e.fills rx = none) :
    s'.1.get rx = s.1.get rx := by
  cases h with
  | poll => rfl
  | fill _ tx slot other empty filled fills =>
      rw [fills] at hfills
      have hne : tx ≠ rx := by
        intro heq
        rw [if_pos heq] at hfills
        cases hfills
      simp [Oneshots.get, List.getElem?_set_ne hne]

/-- A channel that was filled keeps what it holds. -/
theorem Happens.kept (h : Happens s e o s') (hne : s.1.get rx ≠ .empty) :
    s'.1.get rx = s.1.get rx := by
  cases hfills : e.fills rx with
  | none => exact h.unfilled hfills
  | some slot => exact absurd (h.filled hfills).1 hne

end step

/-! ## Runs -/

namespace YumFuture

section runs
variable {α : Type} {s s' s₀ : Oneshots × YumFuture α} {e : FutureEvent}
  {o : Option (PollReport α)} {rx : Oneshot} {slot : Slot} {t : Value → Except Error α}
  {tr : List (FutureEvent × Option (PollReport α))}

theorem unpolled_snoc : Unpolled (tr ++ [(e, o)]) ↔ Unpolled tr ∧ e ≠ .poll := by
  constructor
  · intro h
    refine ⟨fun e he => h e (List.mem_append_left _ he), ?_⟩
    exact h (e, o) (List.mem_append_right _ List.mem_cons_self)
  · rintro ⟨htr, he⟩ e' he'
    rcases List.mem_append.mp he' with hmem | hlast
    · exact htr e' hmem
    · obtain rfl := List.mem_singleton.mp hlast
      exact he

/-- A future that the first poll completes is as it was before that poll, and complete
after it.  `I` is what it needs of the channels for that. -/
theorem completes_of_run {I : Oneshots → Prop} (hI : I s.1)
    (hkeeps : ∀ {t t' : Oneshots × YumFuture α} {e o}, I t.1 → Happens t e o t' → I t'.1)
    (hfirst : ∀ os, I os → (s.2.pollHanded os).2 = .complete)
    (hrun : (futureMachine α).Run s tr s') :
    I s'.1 ∧ ((Unpolled tr ∧ s'.2 = s.2) ∨ (¬ Unpolled tr ∧ s'.2 = .complete)) := by
  refine hrun.invariant (I := fun tr s' =>
    I s'.1 ∧ ((Unpolled tr ∧ s'.2 = s.2) ∨ (¬ Unpolled tr ∧ s'.2 = .complete)))
    ⟨hI, Or.inl ⟨fun e he => absurd he List.not_mem_nil, rfl⟩⟩ ?_
  intro tr u u' e o _ ⟨hu, hphase⟩ hstep
  have h := happens hstep
  refine ⟨hkeeps hu h, ?_⟩
  rw [unpolled_snoc]
  cases h with
  | poll =>
      refine Or.inr ⟨fun hnone => hnone.2 rfl, ?_⟩
      rcases hphase with ⟨_, hsame⟩ | ⟨_, hcomplete⟩
      · show (u.2.pollHanded u.1).2 = .complete
        rw [hsame]
        exact hfirst u.1 hu
      · show (u.2.pollHanded u.1).2 = .complete
        rw [hcomplete]
        rfl
  | fill _ tx slot other empty filled fills =>
      rcases hphase with ⟨hunpolled, hsame⟩ | ⟨hpolled, hcomplete⟩
      · exact Or.inl ⟨⟨hunpolled, other⟩, hsame⟩
      · exact Or.inr ⟨fun hnone => hpolled hnone.1, hcomplete⟩

/-- A complete future finds nothing. -/
theorem step_of_complete (h : s.2 = .complete) :
    (futureMachine α).step s .poll = some (some .idle, s) := by
  obtain ⟨os, f⟩ := s
  obtain rfl : f = .complete := h
  rfl

/-- The values are handed out by one poll. -/
theorem handedOut_of_run (hrun : (futureMachine α).Run s tr s') :
    handedOut tr = [] ∨ ((handedOut tr).length = 1 ∧ s'.2 = .complete) := by
  refine hrun.invariant (I := fun tr s' =>
    handedOut tr = [] ∨ ((handedOut tr).length = 1 ∧ s'.2 = .complete)) (Or.inl rfl) ?_
  intro tr u u' e o _ ih hstep
  have hsnoc : handedOut (tr ++ [(e, o)]) = handedOut tr ++ (o.map (·.handed)).getD [] := by
    simp [handedOut]
  rw [hsnoc]
  cases happens hstep with
  | fill _ tx slot other empty filled fills =>
      show handedOut tr ++ [] = [] ∨ ((handedOut tr ++ []).length = 1 ∧ u.2 = .complete)
      rw [List.append_nil]
      exact ih
  | poll =>
      show handedOut tr ++ (u.2.pollHanded u.1).1.handed = [] ∨
        ((handedOut tr ++ (u.2.pollHanded u.1).1.handed).length = 1 ∧
          (u.2.pollHanded u.1).2 = .complete)
      rcases ih with hnil | ⟨hone, hcomplete⟩
      · rw [hnil, List.nil_append]
        exact handed_cases u.1 u.2
      · rw [hcomplete]
        refine Or.inr ⟨?_, rfl⟩
        show (handedOut tr ++ []).length = 1
        rw [List.append_nil]
        exact hone

theorem yields_of_now {r : Poll α} (hfirst : ∀ os, s₀.2.pollHanded os = (⟨r, []⟩, .complete)) :
    Yields r s₀ := by
  have hphase : ∀ pre s, (futureMachine α).Run s₀ pre s →
      (Unpolled pre ∧ s.2 = s₀.2) ∨ (¬ Unpolled pre ∧ s.2 = .complete) := fun pre s hrun =>
    (completes_of_run (I := fun _ => True) trivial (fun _ _ => trivial)
      (fun os _ => by rw [hfirst]) hrun).2
  refine { first := ?_, late := ?_ }
  · intro pre s hrun hunpolled
    rcases hphase pre s hrun with ⟨_, hsame⟩ | ⟨hpolled, _⟩
    · show some (some (s.2.pollHanded s.1).1, s.1, (s.2.pollHanded s.1).2) = _
      rw [hsame, hfirst]
    · exact absurd hunpolled hpolled
  · intro pre s hrun hpolled
    rcases hphase pre s hrun with ⟨hunpolled, _⟩ | ⟨_, hcomplete⟩
    · exact absurd hunpolled hpolled
    · exact step_of_complete hcomplete

/-! ## A future that waits -/

/-- The future waits at `rx` and decodes with `t`. -/
def Waits (t : Value → Except Error α) (rx : Oneshot) (f : YumFuture α) : Prop :=
  f = .waiting rx t ∨ f = .waitingFn rx t

theorem Waits.poll_empty {f : YumFuture α} (h : Waits t rx f) {os : Oneshots}
    (hempty : os.get rx = .empty) : f.pollHanded os = (.idle, f) := by
  rcases h with rfl | rfl
  · simp [pollHanded, pollWaitingHanded, Oneshots.poll, hempty]
  · simp [pollHanded, pollWaitingHanded, Oneshots.poll, hempty]

theorem Waits.poll_filled {f : YumFuture α} (h : Waits t rx f) {os : Oneshots}
    (hslot : os.get rx = slot) (hne : slot ≠ .empty) :
    f.pollHanded os = (⟨slot.outcome t, slot.handed⟩, .complete) := by
  have hwaiting : ∀ keep, pollWaitingHanded os rx t keep =
      (⟨slot.outcome t, slot.handed⟩, .complete) := by
    intro keep
    cases slot with
    | empty => exact absurd rfl hne
    | dropped => simp [pollWaitingHanded, Oneshots.poll, hslot, Slot.outcome, Slot.handed]
    | sent rv =>
        cases rv with
        | error e => simp [pollWaitingHanded, Oneshots.poll, hslot, Slot.outcome, Slot.handed]
        | ok v =>
            cases hde : t v with
            | ok x => simp [pollWaitingHanded, Oneshots.poll, hslot, Slot.outcome, Slot.handed, hde,
                Except.map]
            | error e => simp [pollWaitingHanded, Oneshots.poll, hslot, Slot.outcome, Slot.handed,
                hde, Except.map]
  rcases h with rfl | rfl
  · exact hwaiting _
  · exact hwaiting _

/-- While its channel is empty the future is as it was. -/
theorem Waits.untouched (h : Waits t rx s₀.2) (hrun : (futureMachine α).Run s₀ tr s)
    (hempty : s.1.get rx = .empty) : s.2 = s₀.2 := by
  refine hrun.invariant (I := fun _ s => s.1.get rx = .empty → s.2 = s₀.2) (fun _ => rfl) ?_
    hempty
  intro tr u u' e o _ ih hstep hempty'
  have hhappens := happens hstep
  have hbefore : u.1.get rx = .empty := by
    by_contra hne
    rw [hhappens.kept hne] at hempty'
    exact hne hempty'
  cases hhappens with
  | poll =>
      show (u.2.pollHanded u.1).2 = s₀.2
      rw [ih hbefore, h.poll_empty hbefore]
  | fill _ tx slot other empty filled fills => exact ih hbefore

theorem empty_of_run (hstart : s₀.1.get rx = .empty) (hrun : (futureMachine α).Run s₀ tr s)
    (hnone : ∀ e ∈ tr, e.1.fills rx = none) : s.1.get rx = .empty := by
  refine hrun.invariant (I := fun tr s => (∀ e ∈ tr, e.1.fills rx = none) → s.1.get rx = .empty)
    (fun _ => hstart) ?_ hnone
  intro tr u u' e o _ ih hstep hnone
  rw [(happens hstep).unfilled (hnone (e, o) (List.mem_append_right _ List.mem_cons_self))]
  exact ih fun e he => hnone e (List.mem_append_left _ he)

/-- After the event on its channel a future is as it was until it is polled, and
complete from then on. -/
theorem Waits.after (h : Waits t rx s₀.2) {pre post : List (FutureEvent × Option (PollReport α))}
    (hrun : (futureMachine α).Run s₀ (pre ++ (e, o) :: post) s) (hfills : e.fills rx = some slot) :
    slot ≠ .empty ∧ s.1.get rx = slot ∧
      ((Unpolled post ∧ s.2 = s₀.2) ∨ (¬ Unpolled post ∧ s.2 = .complete)) := by
  obtain ⟨s₁, hpre, hrest⟩ := hrun.split
  obtain ⟨s₂, hstep, hpost⟩ := Mealy.run_cons.mp hrest
  obtain ⟨hempty, hslot, hne, hsame⟩ := (happens hstep).filled hfills
  have hwaits : s₂.2 = s₀.2 := hsame.trans (h.untouched hpre hempty)
  have hphase := completes_of_run (I := fun os => os.get rx = slot) hslot
    (fun {t t' e o} ht hhappens => (hhappens.kept (ht ▸ hne)).trans ht)
    (fun os hos => by rw [hwaits, h.poll_filled hos hne]) hpost
  rw [hwaits] at hphase
  exact ⟨hne, hphase⟩

theorem Waits.resolves (h : Waits t rx s₀.2) (hempty : s₀.1.get rx = .empty) :
    Resolves t rx s₀ := by
  refine { early := ?_, resolve := ?_, late := ?_, once := ?_ }
  · intro pre s hrun hnone
    have hempty' := empty_of_run hempty hrun hnone
    have hsame := h.untouched hrun hempty'
    refine ⟨hsame, ?_⟩
    show some (some (s.2.pollHanded s.1).1, s.1, (s.2.pollHanded s.1).2) = _
    rw [hsame, h.poll_empty hempty', ← hsame]
  · intro pre e o post slot s hrun hfills hunpolled
    obtain ⟨hne, hslot, hphase⟩ := h.after hrun hfills
    rcases hphase with ⟨_, hsame⟩ | ⟨hpolled, _⟩
    · show some (some (s.2.pollHanded s.1).1, s.1, (s.2.pollHanded s.1).2) = _
      rw [hsame, h.poll_filled hslot hne]
    · exact absurd hunpolled hpolled
  · intro pre e o post slot s hrun hfills hpolled
    obtain ⟨_, _, hphase⟩ := h.after hrun hfills
    rcases hphase with ⟨hunpolled, _⟩ | ⟨_, hcomplete⟩
    · exact absurd hunpolled hpolled
    · exact step_of_complete hcomplete
  · intro tr s hrun
    rcases handedOut_of_run hrun with hnil | ⟨hone, _⟩
    · rw [hnil]
      exact Nat.zero_le _
    · exact Nat.le_of_eq hone

end runs

/-- **A future resolves once, never early and never late.** -/
theorem resolves_once {α : Type} (os : Oneshots) (rx : Oneshot) (t : Value → Except Error α)
    (hempty : os.get rx = .empty) :
    Resolves t rx (os, .waiting rx t) ∧ Resolves t rx (os, .waitingFn rx t) ∧
    (∀ x : α, Yields (.ok (.ready x)) (os, .now x)) ∧
    ∀ e, Yields (.error e : Poll α) (os, .error e) :=
  ⟨Waits.resolves (Or.inl rfl) hempty, Waits.resolves (Or.inr rfl) hempty,
    fun _ => yields_of_now fun _ => rfl, fun _ => yields_of_now fun _ => rfl⟩

/-- A number is sent after one poll, and the next poll decodes it. -/
theorem number_resolves : ∃ s,
    (futureMachine Nat).Run ([.empty], .waiting 0 deUsize)
      [(.poll, some .idle), (.send 0 (.ok (.string "0x2a")), none)] s ∧
    (futureMachine Nat).step s .poll =
      some (some ⟨.ok (.ready 42), [.string "0x2a"]⟩, s.1, .complete) := by
  have hrun : (futureMachine Nat).Run ([.empty], .waiting 0 deUsize)
      [(.poll, some .idle), (.send 0 (.ok (.string "0x2a")), none)] _ :=
    Mealy.run_of_exec (show (futureMachine Nat).exec ([.empty], .waiting 0 deUsize)
      [.poll, .send 0 (.ok (.string "0x2a"))] = some (_, _) from rfl)
  refine ⟨_, hrun, ?_⟩
  exact (resolves_once [.empty] 0 deUsize rfl).1.resolve [(.poll, some .idle)] _ none []
    (.sent (.ok (.string "0x2a"))) _ hrun rfl fun e he => absurd he List.not_mem_nil

end YumFuture

end Ethereyum
