/-
# `Wakeup` — when a lazy stream that says `NotReady` will be polled again

A future registers the polling task when its own poll returns `NotReady`, and
wakes it when it completes.  A stream that returns `NotReady` may therefore be
left alone by its caller only if no future it holds is completed already and
one of them at least is registered.

The streams poll one future in each poll, the front of `line`: the queue with
the futures the poll requests.  Every exit of the loop that is not an item
returns, so the other futures of the queue are not looked at, and a poll leaves
a task to be woken exactly when it is `Attended` (`awake_iff`): the front
decides the poll, or the others are all pending and one of what stays is
registered.  Both streams meet the one description of a poll (`Draws`) that this
rests on.
-/
import Ethereyum.BlockStream
import Ethereyum.TransactionStream

namespace Ethereyum

/-! ## A poll of the front of a queue -/

section draws
variable {κ β : Type}

/-- What the queue is after the front of it, `item`, had its fate. -/
def Fate.requeue (fate : Fate β) (item : Nat × Ticket κ) (rest : List (Nat × Ticket κ)) :
    List (Nat × Ticket κ) :=
  match fate with
  | .kept => rest ++ [item]
  | _ => rest

/-- `Draws env line out queue`: a poll that found `line` returned `out` and left `queue`. -/
inductive Draws (env : PollEnv κ β) :
    List (Nat × Ticket κ) → PollOut κ β → List (Nat × Ticket κ) → Prop
  | ended : Draws env [] .done []
  | front (item : Nat × Ticket κ) (rest : List (Nat × Ticket κ)) :
      Draws env (item :: rest) (.of item (env.fate item)) ((env.fate item).requeue item rest)

/-- A poll of the trace found the future pending, and the stream kept it. -/
def FoundPending (tr : List (PollEnv κ β × PollOut κ β)) (f : Ticket κ) : Prop :=
  ∃ e ∈ tr, e.2.polled = some (f, .kept)

/-- The future was not completed at the time of the poll. -/
def PollEnv.Pending (env : PollEnv κ β) (item : Nat × Ticket κ) : Prop :=
  env.answer item.2 = .ok .notReady

/-- If the last poll of the trace returned `NotReady`, nothing in the queue it left
is completed, and something there is registered. -/
def Awake (tr : List (PollEnv κ β × PollOut κ β)) (env : PollEnv κ β) (out : PollOut κ β)
    (queue : List (Nat × Ticket κ)) : Prop :=
  out.result = .ok .notReady →
    (∀ item ∈ queue, env.Pending item) ∧
    ∃ item ∈ queue, FoundPending (tr ++ [(env, out)]) item.2

/-- The front of the line decides the poll, or nothing behind it is completed, and
it is pending and will be kept, or something behind it is registered. -/
def Attended (tr : List (PollEnv κ β × PollOut κ β)) (env : PollEnv κ β) :
    List (Nat × Ticket κ) → Prop
  | [] => True
  | item :: rest =>
      (env.Pending item ∨ env.answer item.2 = .ok (.ready none)) →
        (∀ i ∈ rest, env.Pending i) ∧
        ((env.Pending item ∧ env.now - item.1 < fiveSeconds) ∨ ∃ i ∈ rest, FoundPending tr i.2)

variable {tr : List (PollEnv κ β × PollOut κ β)} {env : PollEnv κ β} {item : Nat × Ticket κ}
  {rest : List (Nat × Ticket κ)}

/-- A future is registered by an earlier poll or by this one. -/
theorem foundPending_snoc {out : PollOut κ β} {f : Ticket κ} :
    FoundPending (tr ++ [(env, out)]) f ↔ FoundPending tr f ∨ out.polled = some (f, .kept) := by
  constructor
  · rintro ⟨e, he, hpolled⟩
    rcases List.mem_append.mp he with he | he
    · exact Or.inl ⟨e, he, hpolled⟩
    · obtain rfl := List.mem_singleton.mp he
      exact Or.inr hpolled
  · rintro (⟨e, he, hpolled⟩ | hpolled)
    · exact ⟨e, List.mem_append_left _ he, hpolled⟩
    · exact ⟨(env, out), List.mem_append_right _ List.mem_cons_self, hpolled⟩

/-- A poll that does not keep its future registers nothing. -/
theorem foundPending_snoc_of_gone {fate : Fate β} {f : Ticket κ} (h : fate ≠ .kept) :
    FoundPending (tr ++ [(env, PollOut.of item fate)]) f ↔ FoundPending tr f := by
  rw [foundPending_snoc]
  refine or_iff_left ?_
  intro hpolled
  exact h (Prod.mk.inj (Option.some.inj hpolled)).2

/-- The fates of a future, by what its poll returned and its age. -/
theorem PollEnv.fate_cases (env : PollEnv κ β) (item : Nat × Ticket κ) :
    (∃ e, env.answer item.2 = .error e ∧ env.fate item = .failed e) ∨
    (∃ b, env.answer item.2 = .ok (.ready (some b)) ∧ env.fate item = .yielded b) ∨
    (env.answer item.2 = .ok (.ready none) ∧ env.fate item = .null) ∨
    (env.Pending item ∧ env.now - item.1 < fiveSeconds ∧ env.fate item = .kept) ∨
    (env.Pending item ∧ ¬ env.now - item.1 < fiveSeconds ∧ env.fate item = .late) := by
  unfold Pending fate
  cases hanswer : env.answer item.2 with
  | error e => exact Or.inl ⟨e, rfl, rfl⟩
  | ok a =>
      cases a with
      | ready b =>
          cases b with
          | none => exact Or.inr (Or.inr (Or.inl ⟨rfl, rfl⟩))
          | some b => exact Or.inr (Or.inl ⟨b, rfl, rfl⟩)
      | notReady =>
          by_cases hage : env.now - item.1 < fiveSeconds
          · exact Or.inr (Or.inr (Or.inr (Or.inl ⟨rfl, hage, if_pos hage⟩)))
          · exact Or.inr (Or.inr (Or.inr (Or.inr ⟨rfl, hage, if_neg hage⟩)))

/-- A poll that lets go of its future without an item: what stays is the rest of
the line. -/
theorem awake_of_gone {fate : Fate β} (hresult : fate.result = .ok .notReady)
    (hgone : fate ≠ .kept) :
    Awake tr env (.of item fate) rest ↔
      (∀ i ∈ rest, env.Pending i) ∧ ∃ i ∈ rest, FoundPending tr i.2 := by
  constructor
  · intro h
    obtain ⟨hpending, i, hi, hfound⟩ := h hresult
    exact ⟨hpending, i, hi, (foundPending_snoc_of_gone hgone).mp hfound⟩
  · rintro ⟨hpending, i, hi, hfound⟩ -
    exact ⟨hpending, i, hi, (foundPending_snoc_of_gone hgone).mpr hfound⟩

/-- A poll that keeps its future registers it. -/
theorem awake_of_kept (hitem : env.Pending item) :
    Awake tr env (.of item .kept) (rest ++ [item]) ↔ ∀ i ∈ rest, env.Pending i := by
  constructor
  · intro h i hi
    exact (h rfl).1 i (List.mem_append_left _ hi)
  · intro h _
    refine ⟨?_, item, List.mem_append_right _ List.mem_cons_self,
      foundPending_snoc.mpr (Or.inr rfl)⟩
    intro i hi
    rcases List.mem_append.mp hi with hi | hi
    · exact h i hi
    · obtain rfl := List.mem_singleton.mp hi
      exact hitem

/-- A poll that returns an item or an error owes nobody a wakeup. -/
theorem awake_of_decided {fate : Fate β} {queue : List (Nat × Ticket κ)}
    (hresult : fate.result ≠ .ok .notReady)
    (hanswer : ¬ (env.Pending item ∨ env.answer item.2 = .ok (.ready none))) :
    Awake tr env (.of item fate) queue ↔ Attended tr env (item :: rest) := by
  constructor
  · intro _ hopen
    exact absurd hopen hanswer
  · intro _ hnotReady
    exact absurd hnotReady hresult

/-- **A poll leaves its task to be woken exactly when it was attended.** -/
theorem awake_iff {line queue : List (Nat × Ticket κ)} {out : PollOut κ β}
    (h : Draws env line out queue) : Awake tr env out queue ↔ Attended tr env line := by
  cases h with
  | ended =>
      refine ⟨fun _ => trivial, ?_⟩
      intro _ hresult
      cases hresult
  | front item rest =>
      rcases env.fate_cases item with ⟨e, hanswer, hfate⟩ | ⟨b, hanswer, hfate⟩ | ⟨hanswer, hfate⟩ |
        ⟨hpending, hage, hfate⟩ | ⟨hpending, hage, hfate⟩
      · rw [hfate]
        exact awake_of_decided (by simp [Fate.result]) (by simp [PollEnv.Pending, hanswer])
      · rw [hfate]
        exact awake_of_decided (by simp [Fate.result]) (by simp [PollEnv.Pending, hanswer])
      · have hnot : ¬ env.Pending item := by
          simp [PollEnv.Pending, hanswer]
        rw [hfate]
        show Awake tr env (.of item .null) rest ↔ _
        rw [awake_of_gone rfl (by simp)]
        simp [Attended, hanswer, hnot]
      · rw [hfate]
        show Awake tr env (.of item .kept) (rest ++ [item]) ↔ _
        rw [awake_of_kept hpending]
        simp [Attended, hpending, hage]
      · rw [hfate]
        show Awake tr env (.of item .late) rest ↔ _
        rw [awake_of_gone rfl (by simp)]
        simp [Attended, hpending, hage]

end draws

/-! ## Runs -/

section runs
variable {σ κ β : Type}

/-- No poll of the run from `s₀` along `tr` loses a wakeup. -/
def NoLostWakeup (M : Mealy σ (PollEnv κ β) (PollOut κ β)) (queue : σ → List (Nat × Ticket κ))
    (s₀ : σ) (tr : List (PollEnv κ β × PollOut κ β)) : Prop :=
  ∀ (pre post : List (PollEnv κ β × PollOut κ β)) (env : PollEnv κ β) (out : PollOut κ β) (s : σ),
    tr = pre ++ (env, out) :: post → M.Run s₀ (pre ++ [(env, out)]) s → Awake pre env out (queue s)

/-- Every poll of the run from `s₀` along `tr` is attended. -/
def AllAttended (M : Mealy σ (PollEnv κ β) (PollOut κ β))
    (line : PollEnv κ β → σ → List (Nat × Ticket κ)) (s₀ : σ)
    (tr : List (PollEnv κ β × PollOut κ β)) : Prop :=
  ∀ (pre post : List (PollEnv κ β × PollOut κ β)) (env : PollEnv κ β) (out : PollOut κ β) (s : σ),
    tr = pre ++ (env, out) :: post → M.Run s₀ pre s → Attended pre env (line env s)

variable {M : Mealy σ (PollEnv κ β) (PollOut κ β)} {queue : σ → List (Nat × Ticket κ)}
  {line : PollEnv κ β → σ → List (Nat × Ticket κ)} {s₀ : σ}

/-- Of a machine whose every poll draws from its line, the runs that lose no wakeup
are those whose polls are all attended. -/
theorem noLostWakeup_iff
    (hdraws : ∀ {pre s env out s'}, M.Run s₀ pre s → M.step s env = some (out, s') →
      Draws env (line env s) out (queue s'))
    {tr : List (PollEnv κ β × PollOut κ β)} {s : σ} (hrun : M.Run s₀ tr s) :
    NoLostWakeup M queue s₀ tr ↔ AllAttended M line s₀ tr := by
  constructor
  · rintro h pre post env out t rfl hpre
    obtain ⟨t', hpre', hpost⟩ := hrun.split
    obtain ⟨_, rfl⟩ := hpre'.det hpre rfl
    obtain ⟨t'', hstep, _⟩ := Mealy.run_cons.mp hpost
    exact (awake_iff (hdraws hpre hstep)).mp (h pre post env out t'' rfl (hpre.snoc hstep))
  · rintro h pre post env out t rfl hpre
    obtain ⟨t', hpre', hstep⟩ := Mealy.run_snoc.mp hpre
    exact (awake_iff (hdraws hpre' hstep)).mpr (h pre post env out t' rfl hpre')

/-- The front of the line has an item or an error, or it is pending and will be kept, with nothing
but pending futures behind it. -/
def calm (env : PollEnv κ β) : List (Nat × Ticket κ) → Bool
  | [] => true
  | item :: rest =>
      match env.answer item.2 with
      | .ok .notReady => decide (env.now - item.1 < fiveSeconds) && rest.all fun i =>
          match env.answer i.2 with
          | .ok .notReady => true
          | _ => false
      | .ok (.ready none) => false
      | _ => true

theorem attended_of_calm {tr : List (PollEnv κ β × PollOut κ β)} {env : PollEnv κ β}
    {line : List (Nat × Ticket κ)} (h : calm env line = true) : Attended tr env line := by
  cases line with
  | nil => trivial
  | cons item rest =>
      intro hfront
      rcases hfront with hpending | hnull
      · rw [PollEnv.Pending] at hpending
        simp only [calm, hpending, Bool.and_eq_true, decide_eq_true_eq] at h
        refine ⟨?_, Or.inl ⟨hpending, h.1⟩⟩
        intro i hi
        have hanswer := List.all_eq_true.mp h.2 i hi
        split at hanswer
        · assumption
        · cases hanswer
      · simp [calm, hnull] at h

/-- Calm polls are attended. -/
theorem allAttended_of_checks {s : σ} {envs : List (PollEnv κ β)}
    {tr : List (PollEnv κ β × PollOut κ β)} (h : M.exec s₀ envs = some (tr, s))
    (hcalm : M.checks (fun t env => calm env (line env t)) s₀ envs = true) :
    AllAttended M line s₀ tr := by
  have halong := Mealy.along_of_checks (C := fun t env => ∀ tr, Attended tr env (line env t))
    (fun _ _ hcalm _ => attended_of_calm hcalm) h hcalm
  exact fun pre post env out t htr hpre => halong pre post env out t htr hpre pre

end runs

/-! ## The two streams -/

theorem checkedAdd_eq_some {a b c : Nat} :
    checkedAdd a b = some c ↔ a + b < word ∧ c = a + b := by
  simp [checkedAdd, eq_comm]

theorem checkedSub_eq_some {a b c : Nat} : checkedSub a b = some c ↔ b ≤ a ∧ c = a - b := by
  simp [checkedSub, eq_comm]

theorem checkedMul_eq_some {a b c : Nat} :
    checkedMul a b = some c ↔ a * b < word ∧ c = a * b := by
  simp [checkedMul, eq_comm]

namespace BlockStream

/-- The blocks the next poll requests before it takes the front of the queue. -/
def wanted (s : BlockStream) : List Nat :=
  if s.fromBlock = s.toBlock then
    if s.queue = [] then s.missing else []
  else if s.queue.length > s.capacity / 2 then []
  else List.range' s.fromBlock
    (min (s.toBlock - s.fromBlock) (s.capacity - s.queue.length - 1) + 1)

/-- The queue with the futures of those blocks. -/
def line (env : PollEnv BlockRequest Block) (s : BlockStream) :
    List (Nat × Ticket BlockRequest) :=
  env.push s.queue (s.futures s.wanted)

section line
variable {s s' : BlockStream} {env : PollEnv BlockRequest Block}
  {front : Option (Nat × Ticket BlockRequest)}

theorem queue_eq_line (h : s.wanted = []) : s.line env = s.queue := by
  simp [line, h, futures, getBlocks, ticketsFrom, PollEnv.push]

theorem missingBlocks_some {blocks : List Nat} (h : s.missingBlocks = some blocks) :
    blocks = s.missing := by
  simp only [missingBlocks, blockRange, Option.map_map, Option.map_eq_some_iff,
    checkedAdd_eq_some] at h
  obtain ⟨_, ⟨_, rfl⟩, rfl⟩ := h
  rfl

theorem queueCapacity_some {n : Nat} (h : s.queueCapacity = some n) : n = s.capacity :=
  (checkedMul_eq_some.mp h).2

theorem halfCapacity_some {n : Nat} (h : s.halfCapacity = some n) : n = s.capacity / 2 := by
  obtain ⟨capacity, hcapacity, rfl⟩ := Option.map_eq_some_iff.mp h
  rw [queueCapacity_some hcapacity]

theorem remainingCapacity_some {n : Nat} (h : s.remainingCapacity = some n) :
    n = s.capacity - s.queue.length - 1 := by
  simp only [remainingCapacity, Option.bind_eq_bind, Option.bind_eq_some_iff,
    checkedSub_eq_some] at h
  obtain ⟨capacity, hcapacity, free, ⟨_, rfl⟩, _, rfl⟩ := h
  rw [queueCapacity_some hcapacity]

theorem popFront_of_pop {t : BlockStream} (h : t.pop = (front, s')) :
    (front, s'.queue) = popFront t.queue := by
  obtain ⟨rfl, rfl⟩ := Prod.mk.inj h
  rfl

/-- Of whatever stream, a call of `next` that does not panic takes the front of
the line. -/
theorem next_line (h : s.next env = some (front, s')) :
    (front, s'.queue) = popFront (s.line env) := by
  by_cases hreached : s.fromBlock = s.toBlock
  · by_cases hqueue : s.queue = []
    · have hwanted : s.wanted = s.missing := by
        simp [wanted, hreached, hqueue]
      simp only [next, hreached, hqueue, beq_self_eq_true, List.isEmpty_nil, Bool.and_true,
        if_true, Option.bind_eq_bind, Option.bind_eq_some_iff] at h
      obtain ⟨blocks, hblocks, h⟩ := h
      obtain rfl := missingBlocks_some hblocks
      by_cases hmissing : s.missing = []
      · rw [queue_eq_line (hwanted.trans hmissing), hqueue]
        simp only [hmissing, List.isEmpty_nil, if_true, Option.pure_def, Option.some.injEq,
          Prod.mk.injEq] at h
        obtain ⟨rfl, rfl⟩ := h
        rw [hqueue, popFront]
      · simp only [List.isEmpty_iff, hmissing, if_false, Option.pure_def, Option.some.injEq] at h
        rw [popFront_of_pop h, line, hwanted]
        rfl
    · rw [queue_eq_line (by simp [wanted, hreached, hqueue])]
      refine popFront_of_pop ?_
      simpa [next, hreached, hqueue] using h
  · simp only [next, beq_eq_false_iff_ne.mpr hreached, Bool.false_and, Bool.false_eq_true, if_false,
      Option.bind_eq_bind, Option.bind_eq_some_iff] at h
    obtain ⟨half, hhalf, h⟩ := h
    obtain rfl := halfCapacity_some hhalf
    by_cases hfull : s.queue.length > s.capacity / 2
    · rw [queue_eq_line (by simp [wanted, hreached, hfull])]
      refine popFront_of_pop ?_
      simpa [hfull] using h
    · have hwanted : s.wanted = List.range' s.fromBlock
          (min (s.toBlock - s.fromBlock) (s.capacity - s.queue.length - 1) + 1) := by
        simp [wanted, hreached, hfull]
      simp only [if_neg hfull, Option.bind_eq_some_iff, checkedSub_eq_some, checkedAdd_eq_some,
        getBlockRange, blockRange, Option.map_map, Option.map_eq_some_iff] at h
      obtain ⟨_, ⟨_, rfl⟩, remaining, hremaining, _, ⟨_, rfl⟩, _, ⟨_, ⟨_, rfl⟩, rfl⟩, _, _, h⟩ := h
      obtain rfl := remainingCapacity_some hremaining
      have hstop : s.fromBlock + min (s.toBlock - s.fromBlock)
          (s.capacity - s.queue.length - 1) + 1 - s.fromBlock =
          min (s.toBlock - s.fromBlock) (s.capacity - s.queue.length - 1) + 1 := by
        omega
      rw [popFront_of_pop (Option.some.inj h), line, hwanted, ← hstop]
      rfl

theorem settle_queue {t t' : BlockStream} {item : Nat × Ticket BlockRequest} {fate : Fate Block}
    (h : t.settle item fate = some t') : t'.queue = fate.requeue item t.queue := by
  cases fate with
  | yielded b =>
      obtain ⟨n, _, rfl⟩ := Option.map_eq_some_iff.mp h
      rfl
  | null => cases h; rfl
  | failed e => cases h; rfl
  | late => cases h; rfl
  | kept => cases h; rfl

/-- A poll of whatever stream draws from its line. -/
theorem draws {out : PollOut BlockRequest Block} (h : s.poll env = some (out, s')) :
    Draws env (s.line env) out s'.queue := by
  simp only [poll, Option.bind_eq_bind, Option.bind_eq_some_iff] at h
  obtain ⟨⟨front, t⟩, hnext, h⟩ := h
  have hline := next_line hnext
  cases hqueue : s.line env with
  | nil =>
      rw [hqueue] at hline
      obtain ⟨rfl, hempty⟩ := Prod.mk.inj hline
      obtain ⟨rfl, rfl⟩ := Prod.mk.inj (Option.some.inj h)
      rw [show t.queue = [] from hempty]
      exact .ended
  | cons item rest =>
      rw [hqueue] at hline
      obtain ⟨rfl, hrest⟩ := Prod.mk.inj hline
      obtain ⟨t', hsettle, h⟩ := Option.bind_eq_some_iff.mp h
      obtain ⟨rfl, rfl⟩ := Prod.mk.inj (Option.some.inj h)
      rw [settle_queue hsettle, show t.queue = rest from hrest]
      exact .front item rest

end line

end BlockStream

namespace TransactionStream
variable {H256 Transaction : Type}

/-- The queue with the futures of the hashes the next poll requests. -/
def line (env : PollEnv H256 Transaction) (s : TransactionStream H256) :
    List (Nat × Ticket H256) :=
  s.filled env s.wanted

theorem draws {s s' : TransactionStream H256} {env : PollEnv H256 Transaction}
    {out : PollOut H256 Transaction} (hbounded : s.Bounded) (h : s.poll env = some (out, s')) :
    Draws env (s.line env) out s'.queue := by
  rcases poll_eq hbounded env with ⟨hlist, hqueue, hpoll⟩ | ⟨item, rest, hqueue, hpoll⟩
  · rw [hpoll] at h
    obtain ⟨rfl, rfl⟩ := Prod.mk.inj (Option.some.inj h)
    have hline : s.line env = [] := by
      simp [line, filled, hlist, hqueue, ticketsFrom, PollEnv.push]
    rw [hline, hqueue]
    exact .ended
  · rw [hpoll] at h
    obtain ⟨rfl, rfl⟩ := Prod.mk.inj (Option.some.inj h)
    have hsettle : ((s.advance s.wanted rest).settle item (env.fate item)).queue =
        (env.fate item).requeue item rest := by
      cases env.fate item <;> rfl
    rw [show s.line env = item :: rest from hqueue, hsettle]
    exact .front item rest

end TransactionStream

/-- **A run of either stream loses no wakeup exactly when all its polls are attended.** -/
theorem wakeups_kept_iff (H256 Transaction : Type) (s₀ : BlockStream) (txns : List H256) :
    (∀ (s : BlockStream) (tr : List (PollEnv BlockRequest Block × PollOut BlockRequest Block)),
      BlockStream.machine.Run s₀ tr s →
        (NoLostWakeup BlockStream.machine BlockStream.queue s₀ tr ↔
          AllAttended BlockStream.machine BlockStream.line s₀ tr)) ∧
    ∀ (s : TransactionStream H256)
      (tr : List (PollEnv H256 Transaction × PollOut H256 Transaction)),
      (TransactionStream.machine H256 Transaction).Run (TransactionStream.new txns) tr s →
        (NoLostWakeup (TransactionStream.machine H256 Transaction) TransactionStream.queue
            (TransactionStream.new txns) tr ↔
          AllAttended (TransactionStream.machine H256 Transaction) TransactionStream.line
            (TransactionStream.new txns) tr) := by
  constructor
  · intro s tr hrun
    exact noLostWakeup_iff (fun _ hstep => BlockStream.draws hstep) hrun
  · intro s tr hrun
    refine noLostWakeup_iff ?_ hrun
    intro pre s env out s' hpre hstep
    exact TransactionStream.draws (TransactionStream.ledger_of_run hpre).bounded hstep

/-- A server that has answered for the blocks of `answered` so far. -/
def slowNode (answered : List Nat) : PollEnv BlockRequest Block where
  answer f :=
    if f.key.number ∈ answered then .ok (.ready (some ⟨some f.key.number⟩)) else .ok .notReady
  stamp _ := 0
  now := 0

/-- Answers that come in when the stream looks for them: 8, then 9, then 7. -/
def patientPolls : List (PollEnv BlockRequest Block) :=
  [slowNode [], slowNode [8], slowNode [8], slowNode [8], slowNode [8, 9],
    slowNode [7, 8, 9], slowNode [7, 8, 9]]

/-- Three blocks are waited for, registered, and no wakeup is lost. -/
theorem three_blocks_awaited : ∃ tr s,
    BlockStream.machine.exec (BlockStream.new 7 9 false) patientPolls = some (tr, s) ∧
    tr.map (fun e => e.2.polled.map fun p => (p.1.key.number, p.2.result)) =
      [some (7, .ok .notReady), some (8, .ok (.ready (some ⟨some 8⟩))), some (9, .ok .notReady),
        some (7, .ok .notReady), some (9, .ok (.ready (some ⟨some 9⟩))),
        some (7, .ok (.ready (some ⟨some 7⟩))), none] ∧
    NoLostWakeup BlockStream.machine BlockStream.queue (BlockStream.new 7 9 false) tr := by
  refine ⟨_, _, rfl, rfl, ?_⟩
  have hexec : BlockStream.machine.exec (BlockStream.new 7 9 false) patientPolls =
      some (_, _) := rfl
  exact ((wakeups_kept_iff Nat Nat _ []).1 _ _ (Mealy.run_of_exec hexec)).mpr
    (allAttended_of_checks hexec (by decide +kernel))

/-- Of two blocks the first is looked at, kept and registered; when it completes
and wakes the task, the poll looks at the second one, and the task sleeps on
with the first one ready in the queue. -/
theorem completed_block_slept_on : ¬ ∀ (fromBlock toBlock : Nat) (withTx : Bool) (s : BlockStream)
    (tr : List (PollEnv BlockRequest Block × PollOut BlockRequest Block)),
    BlockStream.machine.Run (BlockStream.new fromBlock toBlock withTx) tr s →
      NoLostWakeup BlockStream.machine BlockStream.queue
        (BlockStream.new fromBlock toBlock withTx) tr := by
  intro h
  have hrun : BlockStream.machine.Run (BlockStream.new 7 8 false) _ _ :=
    Mealy.run_of_exec (show BlockStream.machine.exec (BlockStream.new 7 8 false)
      [slowNode [], slowNode [7]] = some (_, _) from rfl)
  have hawake := h 7 8 false _ _ hrun [_] [] (slowNode [7]) _ _ rfl hrun
  have hpending := (hawake rfl).1 (0, ⟨0, ⟨7, false⟩⟩) (by decide)
  exact absurd hpending (by simp [PollEnv.Pending, slowNode])

end Ethereyum
