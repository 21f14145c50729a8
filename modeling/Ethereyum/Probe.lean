/-
# `Probe` — the question of `is_connected`, and who answers it

`SocketWorker::is_connected` puts a `ConnectedStatus` into the mailbox of the worker's
thread and waits for the reply.  The sender of the reply lies in the mailbox with the
message.  When the thread ends, because the peer closed the socket or a `Stop` came
first, what is left in the mailbox goes with it, and `is_connected` finds its reply
canceled where it expects one.

    is_connected   asking → waiting → returned
                   asking → returned               no thread, or the mailbox is closed
                   waiting → panicked              the reply was canceled
    reconnect      the same twice: once before it connects, and in its loop after that

Any number of calls are in progress here, on any workers.
-/
import Ethereyum.Lib.Slots
import Ethereyum.Pool

namespace Ethereyum

/-! ## Calls and mailboxes -/

/-- Whose question it is: of a caller of `is_connected`, of `reconnect` before it
connects, or of the loop after that. -/
inductive Asker where
  | caller
  | reconnect
  | loop

/-- What the receiving end of a reply can see. -/
inductive Reply where
  | awaited
  | sent (b : Bool)
  | canceled

/-- How far a call has got. -/
inductive ProbePc where
  | asking (a : Asker)
  | waiting (a : Asker) (reply : Reply)
  | connecting
  | checking
  | returned (ok : Bool)
  | panicked

/-- A call of `is_connected` or `reconnect`, on the worker at a place. -/
structure Probe where
  worker : Nat
  pc : ProbePc

/-- A message, with the call that waits for the reply. -/
abbrev Letter := SocketRequest × Option Nat

/-- A connection: what its thread has not read yet, and whether the thread runs. -/
structure Line where
  mailbox : List Letter
  running : Bool

structure Probing where
  workers : List SocketWorker
  lines : List Line
  probes : List Probe

inductive ProbeEvent where
  /-- somebody calls `is_connected` on the worker at `w` -/
  | isConnected (w : Nat)
  /-- the sentinel calls `reconnect` on it -/
  | reconnect (w : Nat)
  /-- the next step of the `i`-th call; where it connects, `outcome` says whether it
  can, and in its loop whether there is time left -/
  | next (i : Nat) (outcome : Bool)
  /-- somebody sends another message -/
  | post (k : ConnId) (req : SocketRequest)
  /-- somebody stops the worker at `w` -/
  | stop (w : Nat)
  /-- the thread of the connection `k` reads its next message -/
  | serve (k : ConnId)
  /-- the thread of the connection `k` ends for any other reason than a `Stop` -/
  | close (k : ConnId)

/-- What a call does with the answer to its question. -/
def Asker.answered : Asker → Bool → ProbePc
  | .caller, b => .returned b
  | .reconnect, b => if b then .returned true else .connecting
  | .loop, b => if b then .returned true else .checking

namespace Probe

/-- `Sender::send` on the reply that the call waits for. -/
def reply (b : Bool) (p : Probe) : Probe :=
  match p.pc with
  | .waiting a .awaited => { p with pc := .waiting a (.sent b) }
  | _ => p

/-- The sender of that reply goes out of scope. -/
def cancel (p : Probe) : Probe :=
  match p.pc with
  | .waiting a .awaited => { p with pc := .waiting a .canceled }
  | _ => p

end Probe

namespace Probing

/-! ## The steps -/

/-- Whether `unbounded_send` succeeds. -/
def accepts (s : Probing) (k : ConnId) : Bool :=
  match s.lines[k]? with
  | some l => l.running
  | none => false

/-- `SocketWorker::send_request` to a mailbox that accepts. -/
def send (s : Probing) (k : ConnId) (m : Letter) : Probing :=
  { s with lines := s.lines.modify k fun l => { l with mailbox := l.mailbox ++ [m] } }

def setPc (s : Probing) (i : Nat) (p : Probe) (pc : ProbePc) : Probing :=
  { s with probes := s.probes.set i { p with pc } }

/-- The replies to the letters are canceled. -/
def hangUp (lost : List Letter) (probes : List Probe) : List Probe :=
  probes.mapIdx fun i p => if lost.any fun m => decide (m.2 = some i) then p.cancel else p

/-- The thread ends, with the letters `lost` unread. -/
def endLine (s : Probing) (k : ConnId) (lost : List Letter) : Probing :=
  { s with
    lines := s.lines.set k { mailbox := [], running := false }
    probes := hangUp lost s.probes }

/-- `SocketWorker::is_connected`, up to the wait. -/
def ask (s : Probing) (i : Nat) (p : Probe) (a : Asker) (w : SocketWorker) : Probing :=
  if w.thread.isNone then s.setPc i p (a.answered false)
  else if s.accepts w.tx then
    (s.send w.tx (.connectedStatus, some i)).setPc i p (.waiting a .awaited)
  else s.setPc i p (a.answered false)

/-- `SocketWorker::connect`, in `reconnect`. -/
def connect (s : Probing) (i : Nat) (p : Probe) (outcome : Bool) (w : SocketWorker) : Probing :=
  if outcome then
    { s with
      workers := s.workers.set p.worker
        { w with tx := s.lines.length, thread := some s.lines.length }
      lines := s.lines ++ [{ mailbox := [], running := true }]
      probes := s.probes.set i { p with pc := .checking } }
  else
    { s with
      workers := s.workers.set p.worker { w with thread := none }
      probes := s.probes.set i { p with pc := .returned false } }

/-- The steps of `is_connected` and `reconnect`. -/
def nextStep (s : Probing) (i : Nat) (p : Probe) (outcome : Bool) : Option Probing :=
  match p.pc with
  | .asking a => (s.workers[p.worker]?).map fun w => s.ask i p a w
  | .waiting _ .awaited => none
  | .waiting a (.sent b) => some (s.setPc i p (a.answered b))
  | .waiting _ .canceled => some (s.setPc i p .panicked)
  | .connecting => (s.workers[p.worker]?).map fun w => s.connect i p outcome w
  | .checking => some (s.setPc i p (if outcome then .asking .loop else .returned false))
  | .returned _ => none
  | .panicked => none

/-- `write_stream`, on one message. -/
def serve (s : Probing) (k : ConnId) : Option Probing :=
  match s.lines[k]? with
  | some ⟨(.stop, _) :: rest, true⟩ => some (s.endLine k rest)
  | some ⟨(.connectedStatus, some i) :: rest, true⟩ =>
      some { s with
        lines := s.lines.set k { mailbox := rest, running := true }
        probes := s.probes.modify i (Probe.reply true) }
  | some ⟨_ :: rest, true⟩ =>
      some { s with lines := s.lines.set k { mailbox := rest, running := true } }
  | _ => none

/-- The messages that an event loses. -/
def lost (s : Probing) : ProbeEvent → List Letter
  | .serve k =>
      match s.lines[k]? with
      | some ⟨(.stop, _) :: rest, true⟩ => rest
      | _ => []
  | .close k =>
      match s.lines[k]? with
      | some ⟨mailbox, true⟩ => mailbox
      | _ => []
  | _ => []

/-- `SocketWorker::stop`, up to the join. -/
def stopWorker (s : Probing) (i : Nat) (w : SocketWorker) : Probing :=
  if s.accepts w.tx then
    { s.send w.tx (.stop, none) with workers := s.workers.set i { w with thread := none } }
  else s

/-- Calls and threads as a machine. -/
def machine : Mealy Probing ProbeEvent Unit where
  step s
    | .isConnected w => some ((), { s with probes := s.probes ++ [⟨w, .asking .caller⟩] })
    | .reconnect w => some ((), { s with probes := s.probes ++ [⟨w, .asking .reconnect⟩] })
    | .next i outcome =>
        (s.probes[i]?).bind fun p => (s.nextStep i p outcome).map fun s' => ((), s')
    | .post k req =>
        if s.accepts k && decide (req ≠ .connectedStatus) then some ((), s.send k (req, none))
        else none
    | .stop i => (s.workers[i]?).map fun w => ((), s.stopWorker i w)
    | .serve k => (s.serve k).map fun s' => ((), s')
    | .close k =>
        if s.accepts k then some ((), s.endLine k (s.lost (.close k))) else none

/-- The workers of a client with their `n` connections, before any call. -/
def fresh (workers : List SocketWorker) (n : Nat) : Probing :=
  { workers, lines := List.replicate n { mailbox := [], running := true }, probes := [] }

end Probing

/-! ## Calls that are bound to panic -/

namespace Probe

/-- The call waits for a reply that may still come. -/
def Unanswered (p : Probe) : Prop := ∃ a, p.pc = .waiting a .awaited

/-- The call has panicked, or will as soon as it goes on. -/
def Doomed (p : Probe) : Prop := p.pc = .panicked ∨ ∃ a, p.pc = .waiting a .canceled

theorem doomed_reply {p : Probe} {b : Bool} : (p.reply b).Doomed ↔ p.Doomed := by
  obtain ⟨w, pc⟩ := p
  cases pc with
  | waiting a r => cases r <;> simp [reply, Doomed]
  | asking a => exact Iff.rfl
  | connecting => exact Iff.rfl
  | checking => exact Iff.rfl
  | returned ok => exact Iff.rfl
  | panicked => exact Iff.rfl

theorem doomed_cancel {p : Probe} : p.cancel.Doomed ↔ p.Doomed ∨ p.Unanswered := by
  obtain ⟨w, pc⟩ := p
  cases pc with
  | waiting a r => cases r <;> simp [cancel, Doomed, Unanswered]
  | asking a => simp [cancel, Doomed, Unanswered]
  | connecting => simp [cancel, Doomed, Unanswered]
  | checking => simp [cancel, Doomed, Unanswered]
  | returned ok => simp [cancel, Doomed, Unanswered]
  | panicked => simp [cancel, Doomed, Unanswered]

end Probe

theorem Asker.answered_not_doomed (a : Asker) (b : Bool) (w : Nat) :
    ¬ (Probe.mk w (a.answered b)).Doomed := by
  cases a <;> cases b <;> simp [answered, Probe.Doomed]

namespace Probing

/-- The `i`-th call is bound to panic. -/
def DoomedAt (probes : List Probe) (i : Nat) : Prop := ∃ p, probes[i]? = some p ∧ p.Doomed

/-- The event loses the question of the `i`-th call, which waits for the reply. -/
def Abandons (s : Probing) (e : ProbeEvent) (i : Nat) : Prop :=
  (∃ m ∈ s.lost e, m.2 = some i) ∧ ∃ p, s.probes[i]? = some p ∧ p.Unanswered

section doomed
variable {s s' : Probing} {e : ProbeEvent} {probes : List Probe} {i j : Nat} {p : Probe}

theorem doomedAt_snoc (h : ¬ p.Doomed) : DoomedAt (probes ++ [p]) i ↔ DoomedAt probes i := by
  constructor
  · rintro ⟨q, hq, hdoomed⟩
    rcases Slots.getElem?_snoc_cases hq with hold | ⟨_, rfl⟩
    · exact ⟨q, hold, hdoomed⟩
    · exact absurd hdoomed h
  · rintro ⟨q, hq, hdoomed⟩
    refine ⟨q, ?_, hdoomed⟩
    rw [List.getElem?_append_left (Slots.lt_of_getElem? hq)]
    exact hq

theorem doomedAt_set {q : Probe} (hp : probes[i]? = some p) (h : q.Doomed ↔ p.Doomed) :
    DoomedAt (probes.set i q) j ↔ DoomedAt probes j := by
  by_cases hij : i = j
  · subst hij
    simp [DoomedAt, List.getElem?_set_self (Slots.lt_of_getElem? hp), hp, h]
  · simp [DoomedAt, List.getElem?_set_ne hij]

theorem doomedAt_reply : DoomedAt (probes.modify i (Probe.reply true)) j ↔ DoomedAt probes j := by
  simp only [DoomedAt, List.getElem?_modify]
  cases hj : probes[j]? with
  | none => simp
  | some p => by_cases hij : i = j <;> simp [hij, Probe.doomed_reply]

theorem doomedAt_hangUp {lost : List Letter} :
    DoomedAt (hangUp lost probes) i ↔ DoomedAt probes i ∨
      ((∃ m ∈ lost, m.2 = some i) ∧ ∃ p, probes[i]? = some p ∧ p.Unanswered) := by
  simp only [DoomedAt, hangUp, List.getElem?_mapIdx]
  cases hi : probes[i]? with
  | none => simp
  | some p =>
      by_cases hlost : ∃ m ∈ lost, m.2 = some i
      · have hany : (lost.any fun m => decide (m.2 = some i)) = true := by simpa using hlost
        simp [hany, hlost, Probe.doomed_cancel]
      · have hany : (lost.any fun m => decide (m.2 = some i)) = false := by
          rw [List.any_eq_false]
          intro m hm hi
          exact hlost ⟨m, hm, of_decide_eq_true hi⟩
        simp [hany, hlost]

/-- The step of a call dooms it only if it was. -/
theorem doomedAt_nextStep {outcome : Bool} (hp : s.probes[i]? = some p)
    (hstep : s.nextStep i p outcome = some s') : DoomedAt s'.probes j ↔ DoomedAt s.probes j := by
  have hset : ∀ pc, s'.probes = s.probes.set i { p with pc } →
      (({ p with pc } : Probe).Doomed ↔ p.Doomed) →
      (DoomedAt s'.probes j ↔ DoomedAt s.probes j) := by
    intro pc hprobes hdoomed
    rw [hprobes]
    exact doomedAt_set hp hdoomed
  have hsafe : (∀ a, p.pc ≠ .waiting a .canceled) → p.pc ≠ .panicked → ¬ p.Doomed := by
    rintro hwaiting hpanicked (hpc | ⟨a, hpc⟩)
    · exact hpanicked hpc
    · exact hwaiting a hpc
  unfold nextStep at hstep
  cases hpc : p.pc with
  | asking a =>
      simp only [hpc] at hstep
      obtain ⟨w, _, rfl⟩ := Option.map_eq_some_iff.mp hstep
      have hp' : ¬ p.Doomed := hsafe (by simp [hpc]) (by simp [hpc])
      unfold ask
      split
      · exact doomedAt_set hp (iff_of_false (a.answered_not_doomed false _) hp')
      · split
        · exact doomedAt_set hp (iff_of_false (by simp [Probe.Doomed]) hp')
        · exact doomedAt_set hp (iff_of_false (a.answered_not_doomed false _) hp')
  | waiting a r =>
      simp only [hpc] at hstep
      cases r with
      | awaited => cases hstep
      | sent b =>
          cases hstep
          exact hset _ rfl (iff_of_false (a.answered_not_doomed b _)
            (hsafe (by simp [hpc]) (by simp [hpc])))
      | canceled =>
          cases hstep
          exact hset _ rfl (iff_of_true (Or.inl rfl) (Or.inr ⟨a, hpc⟩))
  | connecting =>
      simp only [hpc] at hstep
      obtain ⟨w, _, rfl⟩ := Option.map_eq_some_iff.mp hstep
      have hp' : ¬ p.Doomed := hsafe (by simp [hpc]) (by simp [hpc])
      unfold connect
      split
      · exact doomedAt_set hp (iff_of_false (by simp [Probe.Doomed]) hp')
      · exact doomedAt_set hp (iff_of_false (by simp [Probe.Doomed]) hp')
  | checking =>
      simp only [hpc] at hstep
      cases hstep
      refine hset _ rfl (iff_of_false ?_ (hsafe (by simp [hpc]) (by simp [hpc])))
      cases outcome <;> simp [Probe.Doomed]
  | returned ok =>
      simp only [hpc] at hstep
      cases hstep
  | panicked =>
      simp only [hpc] at hstep
      cases hstep

/-- An event that loses no message dooms no call. -/
theorem or_abandons_iff (h : s.lost e = []) :
    DoomedAt s.probes j ∨ Abandons s e j ↔ DoomedAt s.probes j := by
  simp [Abandons, h]

/-- The thread that reads a message dooms the calls whose questions it leaves unread. -/
theorem doomedAt_serve {k : ConnId} (hserve : s.serve k = some s') :
    DoomedAt s'.probes j ↔ DoomedAt s.probes j ∨ Abandons s (.serve k) j := by
  unfold serve at hserve
  split at hserve
  · rename_i letter rest hline
    cases hserve
    have hlost : s.lost (.serve k) = rest := by simp only [lost, hline]
    rw [Abandons, hlost]
    exact doomedAt_hangUp
  · rename_i i rest hline
    cases hserve
    have hlost : s.lost (.serve k) = [] := by simp only [lost, hline]
    rw [or_abandons_iff hlost]
    exact doomedAt_reply
  · rename_i letter rest hstop _ hline
    cases hserve
    have hlost : s.lost (.serve k) = [] := by
      simp only [lost, hline]
      split
      · rename_i heq
        cases heq
        exact absurd rfl (hstop _)
      · rfl
    rw [or_abandons_iff hlost]
  · cases hserve

/-- **A call is doomed by an event exactly when the event abandons it.** -/
theorem doomedAt_step {o : Unit} (hstep : machine.step s e = some (o, s')) (j : Nat) :
    DoomedAt s'.probes j ↔ DoomedAt s.probes j ∨ Abandons s e j := by
  cases e with
  | isConnected w =>
      cases hstep
      rw [or_abandons_iff rfl]
      exact doomedAt_snoc (by simp [Probe.Doomed])
  | reconnect w =>
      cases hstep
      rw [or_abandons_iff rfl]
      exact doomedAt_snoc (by simp [Probe.Doomed])
  | next i outcome =>
      rw [or_abandons_iff rfl]
      obtain ⟨p, hp, hnext⟩ := Option.bind_eq_some_iff.mp hstep
      obtain ⟨_, hs', heq⟩ := Option.map_eq_some_iff.mp hnext
      cases heq
      exact doomedAt_nextStep hp hs'
  | post k req =>
      simp only [machine] at hstep
      split at hstep
      · cases hstep
        rw [or_abandons_iff rfl]
        rfl
      · cases hstep
  | stop i =>
      obtain ⟨w, _, heq⟩ := Option.map_eq_some_iff.mp hstep
      cases heq
      rw [or_abandons_iff rfl]
      unfold stopWorker
      split
      · rfl
      · rfl
  | serve k =>
      obtain ⟨_, hserve, heq⟩ := Option.map_eq_some_iff.mp hstep
      cases heq
      exact doomedAt_serve hserve
  | close k =>
      simp only [machine] at hstep
      split at hstep
      · cases hstep
        exact doomedAt_hangUp
      · cases hstep

/-! ## Runs -/

/-- No event of a step ends a thread with an unanswered question in its mailbox. -/
def Answers (s : Probing) (e : ProbeEvent) : Prop := ∀ i, ¬ Abandons s e i

/-- No call reached the `expect`. -/
def Unpanicked (s : Probing) : Prop := ∀ p ∈ s.probes, p.pc ≠ .panicked

/-- Every call has returned, or panicked, or is about to ask or to connect. -/
def Settled (s : Probing) : Prop := ∀ p ∈ s.probes, ∀ a r, p.pc ≠ .waiting a r

variable {workers : List SocketWorker} {n : Nat} {tr : List (ProbeEvent × Unit)}

theorem unpanicked_of_none_doomed (h : ∀ i, ¬ DoomedAt s.probes i) : s.Unpanicked := by
  intro p hp hpc
  obtain ⟨i, hi⟩ := List.mem_iff_getElem?.mp hp
  exact h i ⟨p, hi, Or.inl hpc⟩

theorem none_doomed_of_unpanicked (h : s.Unpanicked) (hsettled : s.Settled) (i : Nat) :
    ¬ DoomedAt s.probes i := by
  rintro ⟨p, hi, hpc | ⟨a, hpc⟩⟩
  · exact h p (List.mem_of_getElem? hi) hpc
  · exact hsettled p (List.mem_of_getElem? hi) a .canceled hpc

/-- A call that is doomed once stays so. -/
theorem doomedAt_run (hrun : machine.Run s tr s') (h : DoomedAt s.probes i) :
    DoomedAt s'.probes i := by
  refine hrun.invariant (I := fun _ s => DoomedAt s.probes i) h ?_
  intro tr u u' e o _ ih hstep
  exact (doomedAt_step hstep i).mpr (Or.inl ih)

/-- When no call is doomed at the end of a run, none was before. -/
theorem none_doomed_before {s₀ t : Probing} {pre post : List (ProbeEvent × Unit)}
    (hrun : machine.Run s₀ (pre ++ post) s) (hpre : machine.Run s₀ pre t)
    (h : ∀ i, ¬ DoomedAt s.probes i) (i : Nat) : ¬ DoomedAt t.probes i := by
  intro hdoomed
  obtain ⟨u, hpre', hpost⟩ := hrun.split
  obtain ⟨_, rfl⟩ := hpre'.det hpre rfl
  exact h i (doomedAt_run hpost hdoomed)

/-- **While every thread that ends has answered the questions in its mailbox, no call of
`is_connected` panics; and in a run after which no call waits none has panicked only
then.** -/
theorem unpanicked_iff (hrun : machine.Run (fresh workers n) tr s) :
    (machine.Along Answers (fresh workers n) tr →
      ∀ pre post t, tr = pre ++ post → machine.Run (fresh workers n) pre t → t.Unpanicked) ∧
    (s.Settled →
      ((∀ pre post t, tr = pre ++ post → machine.Run (fresh workers n) pre t → t.Unpanicked) ↔
        machine.Along Answers (fresh workers n) tr)) := by
  have hiff := hrun.always_iff (P := fun t => ∀ i, ¬ DoomedAt t.probes i) (C := Answers) ?_
  · have hfresh : ∀ i, ¬ DoomedAt (fresh workers n).probes i := by
      rintro i ⟨p, hp, _⟩
      cases hp
    rw [and_iff_right hfresh] at hiff
    have hsafe : machine.Along Answers (fresh workers n) tr →
        ∀ pre post t, tr = pre ++ post → machine.Run (fresh workers n) pre t → t.Unpanicked :=
      fun halong pre post t htr hpre =>
        unpanicked_of_none_doomed (hiff.mpr halong pre post t htr hpre)
    refine ⟨hsafe, fun hsettled => ⟨?_, hsafe⟩⟩
    intro hunpanicked
    refine hiff.mp ?_
    rintro pre post t rfl hpre
    -- a call that is doomed at `t` has panicked by the end
    have hend := hunpanicked _ [] s (List.append_nil _).symm hrun
    exact none_doomed_before hrun hpre (none_doomed_of_unpanicked hend hsettled)
  · intro t t' e o hnone hstep
    constructor
    · intro hnone' i habandons
      exact hnone' i ((doomedAt_step hstep i).mpr (Or.inr habandons))
    · intro hanswers i hdoomed
      rcases (doomedAt_step hstep i).mp hdoomed with hbefore | habandons
      · exact hnone i hbefore
      · exact hanswers i habandons

end doomed

/-- The one worker of a client. -/
def loneWorker : SocketWorker := { id := 0, host := "ws://127.0.0.1:3106", tx := 0, thread := some 0 }

/-- A question that is answered before the peer closes the socket. -/
theorem answered_before_close : ∃ tr s,
    machine.exec (fresh [loneWorker] 1) [.isConnected 0, .next 0 true, .serve 0, .close 0,
      .next 0 true] = some (tr, s) ∧ s.probes = [⟨0, .returned true⟩] ∧
    machine.Along Answers (fresh [loneWorker] 1) tr := by
  refine ⟨_, _, rfl, rfl, ?_⟩
  have hrun : machine.Run (fresh [loneWorker] 1) _ _ :=
    Mealy.run_of_exec (show machine.exec (fresh [loneWorker] 1) [.isConnected 0, .next 0 true,
      .serve 0, .close 0, .next 0 true] = some (_, _) from rfl)
  have hend : ∀ i, ¬ DoomedAt [⟨0, .returned true⟩] i := by
    rintro i ⟨p, hp, hdoomed⟩
    obtain rfl := List.mem_singleton.mp (List.mem_of_getElem? hp)
    rcases hdoomed with hpc | ⟨_, hpc⟩ <;> cases hpc
  refine ((unpanicked_iff hrun).2 ?_).mp ?_
  · intro p hp a r hpc
    obtain rfl := List.mem_singleton.mp hp
    cases hpc
  · intro pre post t htr hpre
    exact unpanicked_of_none_doomed (none_doomed_before (htr ▸ hrun) hpre hend)

/-- The peer closes the socket between the question and the answer. -/
theorem closed_before_answer : ∃ tr s,
    machine.Run (fresh [loneWorker] 1) tr s ∧
    tr.map Prod.fst = [.isConnected 0, .next 0 true, .close 0, .next 0 true] ∧
    s.probes = [⟨0, .panicked⟩] := by
  have hrun : machine.Run (fresh [loneWorker] 1) _ _ :=
    Mealy.run_of_exec (show machine.exec (fresh [loneWorker] 1) [.isConnected 0, .next 0 true,
      .close 0, .next 0 true] = some (_, _) from rfl)
  exact ⟨_, _, hrun, rfl, rfl⟩

end Probing

end Ethereyum
