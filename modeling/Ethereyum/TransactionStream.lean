/-
# `TransactionStream` — the lazy stream of a list of transactions

The stream requests its hashes in order, in batches that fit its queue, and
polls the futures in turn.  A future leaves the queue in one of four ways: its
transaction is yielded, its poll fails, its answer is null, or it is dropped
because it was still pending five seconds after it was requested.

`Ledger` is the account of them: the hashes requested and the hashes left make
up the list, and every request ever made is either in the queue or left it, once
(`conserved`).  `BlockStream` requests again what it dropped; here nothing does,
so a stream that ended accounts for all its hashes exactly when it never dropped
a future (`accounted_iff_none_late`).
-/
import Ethereyum.LazyStream
import Mathlib.Data.List.Perm.Basic

namespace Ethereyum

/-! ## The stream -/

/-- `asked` stands for the client: the requests the stream made of it, in order.
`H256` is the type of hashes. -/
structure TransactionStream (H256 : Type) where
  txList : List H256
  bufferSize : Nat
  batchSize : Nat
  queue : List (Nat × Ticket H256)
  asked : List H256

namespace TransactionStream
variable {H256 Transaction : Type}

/-- `TransactionStream::new`. -/
def new (txns : List H256) : TransactionStream H256 :=
  { txList := txns, batchSize := 10, bufferSize := 5, queue := [], asked := [] }

def queueCapacity (s : TransactionStream H256) : Option Nat := checkedMul s.bufferSize s.batchSize

def halfCapacity (s : TransactionStream H256) : Option Nat := s.queueCapacity.map (· / 2)

def remainingCapacity (s : TransactionStream H256) : Option Nat := do
  let capacity ← s.queueCapacity
  let free ← checkedSub capacity s.queue.length
  checkedSub free 1

/-- `TransactionOps::get_transactions`: the futures, in the order of the hashes. -/
def getTransactions (s : TransactionStream H256) (txns : List H256) :
    List (Ticket H256) × TransactionStream H256 :=
  (ticketsFrom s.asked.length txns, { s with asked := s.asked ++ txns })

/-- `self.queue.pop_front()`. -/
def pop (s : TransactionStream H256) : Option (Nat × Ticket H256) × TransactionStream H256 :=
  ((popFront s.queue).1, { s with queue := (popFront s.queue).2 })

/-- The loop of `next` that moves hashes from the list to the batch. -/
def takeBatch : Nat → List H256 → List H256 → List H256 × List H256
  | 0, txList, thisBatch => (thisBatch, txList)
  | n + 1, txList, thisBatch =>
      match popFront txList with
      | (some tx, txList) => takeBatch n txList (thisBatch ++ [tx])
      | (none, txList) => takeBatch n txList thisBatch

/-- `TransactionStream::next`. -/
def next (env : PollEnv H256 Transaction) (s : TransactionStream H256) :
    Option (Option (Nat × Ticket H256) × TransactionStream H256) := do
  if s.txList.isEmpty && s.queue.isEmpty then
    return (none, s)
  else if s.txList.isEmpty && !s.queue.isEmpty then
    return s.pop
  else
    let half ← s.halfCapacity
    if s.queue.length > half then
      return s.pop
    else
      let remaining ← s.remainingCapacity
      let getThisMany := min s.txList.length remaining
      let (thisBatch, txList) := takeBatch getThisMany s.txList []
      let (futs, s) := { s with txList }.getTransactions thisBatch
      return { s with queue := env.push s.queue futs }.pop

/-- The rest of the body of `poll`, once the future of `item` had its fate. -/
def settle (s : TransactionStream H256) (item : Nat × Ticket H256) :
    Fate Transaction → TransactionStream H256
  | .kept => { s with queue := s.queue ++ [item] }
  | _ => s

/-- `TransactionStream::poll`. -/
def poll (env : PollEnv H256 Transaction) (s : TransactionStream H256) :
    Option (PollOut H256 Transaction × TransactionStream H256) := do
  match ← s.next env with
  | (none, s) => return (.done, s)
  | (some item, s) => return (.of item (env.fate item), s.settle item (env.fate item))

/-- The stream as a machine, polled again and again. -/
def machine (H256 Transaction : Type) :
    Mealy (TransactionStream H256) (PollEnv H256 Transaction) (PollOut H256 Transaction) where
  step s env := s.poll env

/-! ## What a poll does -/

section poll
variable {s : TransactionStream H256} {env : PollEnv H256 Transaction}

/-- The queue of the stream that `new` builds, and its bound. -/
structure Bounded (s : TransactionStream H256) : Prop where
  buffer : s.bufferSize = 5
  batch : s.batchSize = 10
  queue : s.queue.length ≤ 50

theorem Bounded.queueCapacity_eq (h : s.Bounded) : s.queueCapacity = some 50 := by
  rw [queueCapacity, h.buffer, h.batch]
  rfl

theorem takeBatch_eq (n : Nat) (txList thisBatch : List H256) :
    takeBatch n txList thisBatch = (thisBatch ++ txList.take n, txList.drop n) := by
  induction n generalizing txList thisBatch with
  | zero => simp [takeBatch]
  | succ n ih =>
      cases txList with
      | nil => simp [takeBatch, popFront, ih]
      | cons tx txList => simp [takeBatch, popFront, ih]

/-- How many hashes the next call of `next` requests. -/
def wanted (s : TransactionStream H256) : Nat :=
  if s.queue.length > 25 then 0 else min s.txList.length (50 - s.queue.length - 1)

/-- The stream after it requested `n` hashes and is left with `queue`. -/
def advance (s : TransactionStream H256) (n : Nat) (queue : List (Nat × Ticket H256)) :
    TransactionStream H256 :=
  { s with txList := s.txList.drop n, queue, asked := s.asked ++ s.txList.take n }

/-- The queue with the futures of the next `n` hashes. -/
def filled (env : PollEnv H256 Transaction) (s : TransactionStream H256) (n : Nat) :
    List (Nat × Ticket H256) :=
  env.push s.queue (ticketsFrom s.asked.length (s.txList.take n))

theorem pop_filled {n : Nat} (h : s.queue ≠ [] ∨ s.txList.take n ≠ []) :
    ∃ item rest, s.filled env n = item :: rest ∧
      (s.advance n (s.filled env n)).pop = (some item, s.advance n rest) := by
  have hne : s.filled env n ≠ [] := by
    rcases h with h | h
    · simp [filled, PollEnv.push, h]
    · have hfutures : ticketsFrom s.asked.length (s.txList.take n) ≠ [] := by
        rw [← List.length_pos_iff, length_ticketsFrom, List.length_pos_iff]
        exact h
      simp [filled, PollEnv.push, hfutures]
  obtain ⟨item, rest, hqueue⟩ := List.exists_cons_of_ne_nil hne
  exact ⟨item, rest, hqueue, by simp [pop, popFront, advance, hqueue]⟩

theorem advance_zero : s.advance 0 (s.filled env 0) = s := by
  simp [advance, filled, ticketsFrom, PollEnv.push]

/-- With a list left and room in the queue the call requests some hashes. -/
theorem wanted_pos (hlist : s.txList ≠ []) (hroom : s.queue.length ≤ 25) : 0 < s.wanted := by
  have hlen := List.length_pos_iff.mpr hlist
  rw [wanted, if_neg (Nat.not_lt.mpr hroom)]
  omega

/-- What a call of `next` pops from. -/
theorem next_pop (h : s.Bounded) (env : PollEnv H256 Transaction) :
    (s.txList = [] ∧ s.queue = [] ∧ s.next env = some (none, s)) ∨
    ((s.queue ≠ [] ∨ s.txList.take s.wanted ≠ []) ∧
      s.next env = some (s.advance s.wanted (s.filled env s.wanted)).pop) := by
  by_cases hlist : s.txList = []
  · by_cases hqueue : s.queue = []
    · exact Or.inl ⟨hlist, hqueue, by simp [next, hlist, hqueue]⟩
    · refine Or.inr ⟨Or.inl hqueue, ?_⟩
      have hwanted : s.wanted = 0 := by
        simp [wanted, hlist]
      rw [hwanted, advance_zero]
      simp [next, hlist, hqueue]
  · refine Or.inr ?_
    have hhalf : s.halfCapacity = some 25 := by
      rw [halfCapacity, h.queueCapacity_eq]
      rfl
    by_cases hfull : s.queue.length > 25
    · have hwanted : s.wanted = 0 := if_pos hfull
      refine ⟨Or.inl fun hnil => by simp [hnil] at hfull, ?_⟩
      rw [hwanted, advance_zero]
      simp [next, hlist, hhalf, hfull]
    · have hroom : s.queue.length ≤ 25 := Nat.le_of_not_lt hfull
      have hpos := wanted_pos hlist hroom
      have hwanted : min s.txList.length (50 - s.queue.length - 1) = s.wanted :=
        (if_neg hfull).symm
      have hfree : checkedSub 50 s.queue.length = some (50 - s.queue.length) :=
        checkedSub_of_le h.queue
      have hrest : checkedSub (50 - s.queue.length) 1 = some (50 - s.queue.length - 1) :=
        checkedSub_of_le (by omega)
      have hremaining : s.remainingCapacity = some (50 - s.queue.length - 1) := by
        simp [remainingCapacity, h.queueCapacity_eq, hfree, hrest]
      refine ⟨Or.inr ?_, ?_⟩
      · rw [← List.length_pos_iff, List.length_take]
        exact Nat.lt_min.mpr ⟨hpos, List.length_pos_iff.mpr hlist⟩
      · simp [next, hlist, hhalf, hfull, hremaining, hwanted, takeBatch_eq, getTransactions,
          advance, filled]

/-- A call of `next`: either list and queue are empty, or the call requests the
hashes it wants and takes the front of the queue, which is not empty then. -/
theorem next_eq (h : s.Bounded) (env : PollEnv H256 Transaction) :
    (s.txList = [] ∧ s.queue = [] ∧ s.next env = some (none, s)) ∨
    ∃ item rest, s.filled env s.wanted = item :: rest ∧
      s.next env = some (some item, s.advance s.wanted rest) := by
  rcases next_pop h env with hended | ⟨hne, hnext⟩
  · exact Or.inl hended
  · obtain ⟨item, rest, hqueue, hpop⟩ := pop_filled hne
    exact Or.inr ⟨item, rest, hqueue, hnext.trans (congrArg some hpop)⟩

/-- A poll never panics.  It returns `None` with list and queue empty, and settles
the front of the queue otherwise. -/
theorem poll_eq (h : s.Bounded) (env : PollEnv H256 Transaction) :
    (s.txList = [] ∧ s.queue = [] ∧ s.poll env = some (.done, s)) ∨
    ∃ item rest, s.filled env s.wanted = item :: rest ∧
      s.poll env = some (.of item (env.fate item),
        (s.advance s.wanted rest).settle item (env.fate item)) := by
  rcases next_eq h env with ⟨hlist, hqueue, hnext⟩ | ⟨item, rest, hqueue, hnext⟩
  · exact Or.inl ⟨hlist, hqueue, by simp [poll, hnext]⟩
  · exact Or.inr ⟨item, rest, hqueue, by simp [poll, hnext]⟩

end poll

/-! ## Conservation -/

/-- The futures that left the queue along a trace, with the way they left. -/
def exits (tr : List (PollEnv H256 Transaction × PollOut H256 Transaction)) :
    List (Ticket H256 × Fate Transaction) :=
  tr.filterMap fun e => match e.2.polled with
    | some (_, .kept) => none
    | polled => polled

theorem exits_append (tr tr' : List (PollEnv H256 Transaction × PollOut H256 Transaction)) :
    exits (tr ++ tr') = exits tr ++ exits tr' :=
  List.filterMap_append

/-- The account of a stream over `txns`. -/
structure Ledger (txns : List H256)
    (tr : List (PollEnv H256 Transaction × PollOut H256 Transaction))
    (s : TransactionStream H256) : Prop where
  bounded : s.Bounded
  requested : s.asked ++ s.txList = txns
  /-- every request is in the queue or left it -/
  placed : (s.queue.map (·.2) ++ (exits tr).map (·.1)).Perm (ticketsFrom 0 s.asked)

section ledger
variable {txns : List H256} {s s' : TransactionStream H256} {env : PollEnv H256 Transaction}
  {out : PollOut H256 Transaction}
  {tr : List (PollEnv H256 Transaction × PollOut H256 Transaction)}

theorem ledger_new (txns : List H256) : Ledger txns
    ([] : List (PollEnv H256 Transaction × PollOut H256 Transaction)) (new txns) where
  bounded := ⟨rfl, rfl, Nat.zero_le _⟩
  requested := rfl
  placed := List.Perm.refl _

/-- What the queue holds once the wanted hashes are requested. -/
theorem Ledger.filled (h : Ledger txns tr s) :
    ((s.filled env s.wanted).map (·.2) ++ (exits tr).map (·.1)).Perm
      (ticketsFrom 0 (s.asked ++ s.txList.take s.wanted)) := by
  have hnew : ((s.filled env s.wanted).map (·.2)) =
      s.queue.map (·.2) ++ ticketsFrom s.asked.length (s.txList.take s.wanted) := push_tickets _ _ _
  rw [hnew, ticketsFrom_append, Nat.zero_add, List.append_assoc]
  refine (List.Perm.append_left _ List.perm_append_comm).trans ?_
  rw [← List.append_assoc]
  exact h.placed.append_right _

theorem length_filled (h : s.Bounded) : (s.filled env s.wanted).length ≤ 50 := by
  have hlen : (s.filled env s.wanted).length =
      s.queue.length + (s.txList.take s.wanted).length := by
    simp [filled, PollEnv.push]
  have hqueue := h.queue
  have hwanted : s.wanted ≤ 50 - s.queue.length := by
    unfold wanted
    split <;> omega
  have htake := List.length_take_le s.wanted s.txList
  omega

theorem Ledger.poll (h : Ledger txns tr s) (hstep : s.poll env = some (out, s')) :
    Ledger txns (tr ++ [(env, out)]) s' := by
  rcases poll_eq h.bounded env with ⟨_, _, hpoll⟩ | ⟨item, rest, hqueue, hpoll⟩
  · rw [hpoll] at hstep
    cases hstep
    refine ⟨h.bounded, h.requested, ?_⟩
    rw [exits_append]
    simpa [exits, PollOut.done] using h.placed
  · rw [hpoll] at hstep
    cases hstep
    have hplaced := @Ledger.filled _ _ _ _ env _ h
    have hlen := @length_filled _ _ _ env h.bounded
    rw [hqueue] at hplaced hlen
    have hrequested : (s.asked ++ s.txList.take s.wanted) ++ s.txList.drop s.wanted = txns := by
      rw [List.append_assoc, List.take_append_drop]
      exact h.requested
    have hgone : ∀ fate : Fate Transaction, exits [(env, PollOut.of item fate)] = [(item.2, fate)] →
        Ledger txns (tr ++ [(env, .of item fate)]) (s.advance s.wanted rest) := by
      intro fate hexit
      refine ⟨⟨h.bounded.buffer, h.bounded.batch, Nat.le_of_succ_le hlen⟩, hrequested, ?_⟩
      rw [exits_append, hexit, List.map_append, ← List.append_assoc]
      refine List.perm_append_comm.trans ?_
      simpa [advance] using hplaced
    cases hfate : env.fate item with
    | yielded b => exact hgone _ rfl
    | null => exact hgone _ rfl
    | failed e => exact hgone _ rfl
    | late => exact hgone _ rfl
    | kept =>
        refine ⟨⟨h.bounded.buffer, h.bounded.batch, ?_⟩, hrequested, ?_⟩
        · simpa [settle, advance] using hlen
        · have hkept : exits [(env, PollOut.of item (Fate.kept : Fate Transaction))] = [] := rfl
          rw [exits_append, hkept, List.append_nil]
          refine List.Perm.trans ?_ hplaced
          refine List.Perm.append_right _ ?_
          simp [settle, advance]

theorem ledger_of_run (hrun : (machine H256 Transaction).Run (new txns) tr s) :
    Ledger txns tr s :=
  hrun.invariant (I := Ledger txns) (ledger_new txns) fun _ h hstep => h.poll hstep

/-- A future that left the queue did not stay. -/
theorem ne_kept_of_mem_exits {f : Ticket H256} {fate : Fate Transaction}
    (h : (f, fate) ∈ exits tr) : fate ≠ .kept := by
  obtain ⟨e, _, hpolled⟩ := List.mem_filterMap.mp h
  split at hpolled
  · cases hpolled
  · rename_i hkept
    rintro rfl
    exact hkept f hpolled

/-- Each future leaves the queue once. -/
theorem Ledger.nodup_exits (h : Ledger txns tr s) : ((exits tr).map (·.1)).Nodup :=
  (List.nodup_append.mp (h.placed.nodup_iff.mpr (nodup_ticketsFrom 0 s.asked))).2.1

/-- **Conservation.**  The hashes are requested in order, each once; every request
is either in the queue or left it, once and in one way; the queue never holds
more than its capacity, no poll panics, and none returns `None` before list and
queue are empty. -/
theorem conserved (hrun : (machine H256 Transaction).Run (new txns) tr s) :
    s.asked ++ s.txList = txns ∧
    ((s.queue.map (·.2) ++ (exits tr).map (·.1)).Perm (ticketsFrom 0 s.asked) ∧
      (ticketsFrom 0 s.asked).Nodup ∧ ∀ e ∈ exits tr, e.2 ≠ .kept) ∧
    (∃ capacity, s.queueCapacity = some capacity ∧ s.queue.length ≤ capacity) ∧
    (∀ env, ∃ out s', (machine H256 Transaction).step s env = some (out, s') ∧
      (out.result = .ok (.ready none) → s.txList = [] ∧ s.queue = []) ∧
      ∀ f fate, out.polled = some (f, fate) → out.result = fate.result) := by
  have h := ledger_of_run hrun
  refine ⟨h.requested, ⟨h.placed, nodup_ticketsFrom _ _, fun e he => ne_kept_of_mem_exits he⟩,
    ⟨50, h.bounded.queueCapacity_eq, h.bounded.queue⟩, ?_⟩
  intro env
  rcases poll_eq h.bounded env with ⟨hlist, hqueue, hpoll⟩ | ⟨item, rest, _, hpoll⟩
  · exact ⟨_, _, hpoll, fun _ => ⟨hlist, hqueue⟩, fun _ _ hpolled => nomatch hpolled⟩
  · refine ⟨_, _, hpoll, fun hdone => absurd hdone (Fate.result_ne_done _), ?_⟩
    intro f fate hpolled
    obtain ⟨rfl, rfl⟩ := Prod.mk.inj (Option.some.inj hpolled)
    rfl

end ledger

/-- A server that has every transaction, under the number of its hash. -/
def promptNode : PollEnv Nat Nat where
  answer f := .ok (.ready (some f.key))
  stamp _ := 0
  now := 0

/-- Of a list with a hash twice, the first occurrence is yielded and the second
waits. -/
theorem repeated_hash_conserved : ∃ tr s,
    (machine Nat Nat).exec (new [3, 3]) [promptNode] = some (tr, s) ∧
    s.asked ++ s.txList = [3, 3] ∧
    (s.queue.map (·.2) ++ (exits tr).map (·.1)).Perm [⟨0, 3⟩, ⟨1, 3⟩] := by
  refine ⟨_, _, rfl, ?_⟩
  have hrun : (machine Nat Nat).Run (new [3, 3]) _ _ :=
    Mealy.run_of_exec (show (machine Nat Nat).exec (new [3, 3]) [promptNode] = some (_, _) from rfl)
  exact ⟨(conserved hrun).1, (conserved hrun).2.1.1⟩

/-! ## Dropped transactions -/

section late
variable {txns : List H256} {s s' : TransactionStream H256} {env : PollEnv H256 Transaction}
  {out : PollOut H256 Transaction}
  {tr : List (PollEnv H256 Transaction × PollOut H256 Transaction)}

/-- The fates that a caller or the server accounts for. -/
def Accounted : Fate Transaction → Prop
  | .yielded _ => True
  | .failed _ => True
  | .null => True
  | _ => False

/-- The future the next poll takes: the front of the queue, or with an empty queue
that of the next hash, which the poll requests. -/
def front (s : TransactionStream H256) (env : PollEnv H256 Transaction) :
    Option (Nat × Ticket H256) :=
  match s.queue, s.txList with
  | item :: _, _ => some item
  | [], tx :: _ => some (env.stamp ⟨s.asked.length, tx⟩, ⟨s.asked.length, tx⟩)
  | [], [] => none

/-- That future is done, or younger than five seconds. -/
def NotLate (s : TransactionStream H256) (env : PollEnv H256 Transaction) : Prop :=
  ∀ item, s.front env = some item → env.answer item.2 = .ok .notReady →
    env.now - item.1 < fiveSeconds

theorem front_of_filled {item : Nat × Ticket H256} {rest : List (Nat × Ticket H256)}
    (h : s.filled env s.wanted = item :: rest) : s.front env = some item := by
  cases hqueue : s.queue with
  | cons item' queue =>
      have hhead : item' = item := by
        simp only [filled, PollEnv.push, hqueue, List.cons_append] at h
        exact (List.cons.inj h).1
      rw [front, hqueue, hhead]
  | nil =>
      cases hlist : s.txList with
      | nil => simp [filled, PollEnv.push, hqueue, hlist, ticketsFrom] at h
      | cons tx txList =>
          obtain ⟨n, hwanted⟩ : ∃ n, s.wanted = n + 1 := by
            refine Nat.exists_eq_succ_of_ne_zero (Nat.ne_of_gt (wanted_pos ?_ ?_))
            · rw [hlist]
              exact List.cons_ne_nil _ _
            · rw [hqueue]
              exact Nat.zero_le _
          have hhead : (env.stamp ⟨s.asked.length, tx⟩, (⟨s.asked.length, tx⟩ : Ticket H256)) =
              item := by
            simp only [filled, PollEnv.push, hqueue, hlist, hwanted, ticketsFrom,
              List.take_succ_cons, List.mapIdx_cons, List.map_cons, List.nil_append] at h
            exact (List.cons.inj h).1
          rw [← hhead, front, hqueue, hlist]

theorem fate_eq_late {item : Nat × Ticket H256} :
    env.fate item = .late ↔
      env.answer item.2 = .ok .notReady ∧ ¬ env.now - item.1 < fiveSeconds := by
  unfold PollEnv.fate
  cases hanswer : env.answer item.2 with
  | error e => simp
  | ok a =>
      cases a with
      | ready b => cases b <;> simp
      | notReady => by_cases hage : env.now - item.1 < fiveSeconds <;> simp [hage]

/-- What a poll drops for its age it finds late, and the other way round. -/
theorem notLate_iff (h : s.Bounded) (hstep : s.poll env = some (out, s')) :
    s.NotLate env ↔ ∀ f, out.polled ≠ some (f, .late) := by
  rcases poll_eq h env with ⟨hlist, hqueue, hpoll⟩ | ⟨item, rest, hqueue, hpoll⟩
  · rw [hpoll] at hstep
    cases hstep
    refine ⟨fun _ f hf => (nomatch hf), ?_⟩
    intro _ item hitem
    rw [front, hqueue, hlist] at hitem
    cases hitem
  · rw [hpoll] at hstep
    cases hstep
    have hfront := front_of_filled hqueue
    constructor
    · intro hnot f hf
      have hlate : env.fate item = .late := (Prod.mk.inj (Option.some.inj hf)).2
      obtain ⟨hanswer, hage⟩ := fate_eq_late.mp hlate
      exact hage (hnot item hfront hanswer)
    · intro hpolled item' hitem hanswer
      rw [hfront] at hitem
      cases hitem
      by_contra hage
      have hlate : env.fate item = .late := fate_eq_late.mpr ⟨hanswer, hage⟩
      exact hpolled item.2 (by rw [PollOut.of, hlate])

/-- A run whose polls find no future late drops none, and the other way round. -/
theorem along_notLate_iff (hrun : (machine H256 Transaction).Run (new txns) tr s) :
    (machine H256 Transaction).Along NotLate (new txns) tr ↔
      ∀ f : Ticket H256, (f, (Fate.late : Fate Transaction)) ∉ exits tr := by
  rw [hrun.along_iff fun hpre hstep => notLate_iff (ledger_of_run hpre).bounded hstep]
  constructor
  · intro hall f hf
    obtain ⟨e, he, hpolled⟩ := List.mem_filterMap.mp hf
    refine hall e he f ?_
    split at hpolled
    · cases hpolled
    · exact hpolled
  · intro hnone e he f hpolled
    refine hnone f (List.mem_filterMap.mpr ⟨e, he, ?_⟩)
    simp only [hpolled]

/-- **A stream that ended accounts for all its hashes exactly when no poll of it
found the future at the front pending and five seconds old.** -/
theorem accounted_iff_none_late (hrun : (machine H256 Transaction).Run (new txns) tr s)
    (hstep : (machine H256 Transaction).step s env = some (out, s'))
    (hdone : out.result = .ok (.ready none)) :
    (∀ f ∈ ticketsFrom 0 txns, ∃ fate, (f, fate) ∈ exits tr ∧ Accounted fate) ↔
      (machine H256 Transaction).Along NotLate (new txns) tr := by
  have h := ledger_of_run hrun
  have hempty : s.txList = [] ∧ s.queue = [] := by
    rcases poll_eq h.bounded env with ⟨hlist, hqueue, _⟩ | ⟨item, rest, _, hpoll⟩
    · exact ⟨hlist, hqueue⟩
    · have hout := congrArg (Option.map Prod.fst) (hpoll.symm.trans hstep)
      obtain rfl := Option.some.inj hout
      exact absurd hdone (Fate.result_ne_done _)
  have hasked : s.asked = txns := by
    have hrequested := h.requested
    rwa [hempty.1, List.append_nil] at hrequested
  have hplaced : ((exits tr).map (·.1)).Perm (ticketsFrom 0 txns) := by
    have hplaced := h.placed
    rwa [hempty.2, hasked] at hplaced
  rw [along_notLate_iff hrun]
  constructor
  · intro hall f hlate
    have hf : f ∈ ticketsFrom 0 txns :=
      hplaced.mem_iff.mp (List.mem_map.mpr ⟨_, hlate, rfl⟩)
    obtain ⟨fate, hfate, haccounted⟩ := hall f hf
    have hsame := List.inj_on_of_nodup_map h.nodup_exits hfate hlate rfl
    cases hsame
    exact haccounted
  · intro hnone f hf
    obtain ⟨⟨f', fate⟩, hexit, rfl⟩ := List.mem_map.mp (hplaced.mem_iff.mpr hf)
    refine ⟨fate, hexit, ?_⟩
    cases fate with
    | yielded b => trivial
    | null => trivial
    | failed e => trivial
    | late => exact absurd hexit (hnone f')
    | kept => exact ne_kept_of_mem_exits hexit rfl

end late

/-- A server that is late with the hash 3, does not have 4, and fails at 5. -/
def mixedNode (now : Nat) : PollEnv Nat Nat where
  answer f :=
    match f.key with
    | 3 => if now = 0 then .ok .notReady else .ok (.ready (some 3))
    | 4 => .ok (.ready none)
    | 5 => .error .canceled
    | n => .ok (.ready (some n))
  stamp _ := 0
  now := now

/-- The polls of a stream over four hashes; the first one waits and is polled again. -/
def mixedPolls : List (PollEnv Nat Nat) :=
  [mixedNode 0, mixedNode 1, mixedNode 2, mixedNode 3, mixedNode 4]

/-- All four hashes are accounted for. -/
theorem mixed_hashes_accounted : ∃ tr s,
    (machine Nat Nat).exec (new [3, 4, 5, 6]) mixedPolls = some (tr, s) ∧
    tr.map (fun e => e.2.polled) = [some (⟨0, 3⟩, .kept), some (⟨1, 4⟩, .null),
      some (⟨2, 5⟩, .failed .canceled), some (⟨3, 6⟩, .yielded 6), some (⟨0, 3⟩, .yielded 3)] ∧
    ∀ f ∈ ticketsFrom 0 [3, 4, 5, 6], ∃ fate, (f, fate) ∈ exits tr ∧ Accounted fate := by
  refine ⟨_, _, rfl, rfl, ?_⟩
  have hrun : (machine Nat Nat).Run (new [3, 4, 5, 6]) _ _ :=
    Mealy.run_of_exec (show (machine Nat Nat).exec (new [3, 4, 5, 6]) mixedPolls =
      some (_, _) from rfl)
  refine (accounted_iff_none_late hrun (show (machine Nat Nat).step _ (mixedNode 5) =
    some (.done, _) from rfl) rfl).mpr (Mealy.along_of_forall ?_)
  -- the last poll is at the instant 4
  intro e he t item _ _
  have hnow : e.1.now < fiveSeconds := by
    have hmem : e.1.now ∈ [0, 1, 2, 3, 4] := List.mem_map_of_mem (f := fun e => e.1.now) he
    simp only [List.mem_cons, List.not_mem_nil, or_false] at hmem
    unfold fiveSeconds
    omega
  exact Nat.lt_of_le_of_lt (Nat.sub_le _ _) hnow

/-- A server that does not answer, asked for the age of the future at `now`. -/
def silentNode (now : Nat) : PollEnv Nat Nat where
  answer _ := .ok .notReady
  stamp _ := 0
  now := now

/-- Polled at once and again after five seconds, the only future of the stream is
dropped, and the stream ends without a word about its hash. -/
theorem silent_hash_dropped : ¬ ∀ (txns : List Nat)
    (tr : List (PollEnv Nat Nat × PollOut Nat Nat)) (s s' : TransactionStream Nat)
    (env : PollEnv Nat Nat) (out : PollOut Nat Nat),
    (machine Nat Nat).Run (new txns) tr s → (machine Nat Nat).step s env = some (out, s') →
    out.result = .ok (.ready none) →
    ∀ f ∈ ticketsFrom 0 txns, ∃ fate, (f, fate) ∈ exits tr ∧ Accounted fate := by
  intro h
  have hrun : (machine Nat Nat).Run (new [3]) _ _ :=
    Mealy.run_of_exec (show (machine Nat Nat).exec (new [3])
      [silentNode 0, silentNode fiveSeconds] = some (_, _) from rfl)
  obtain ⟨fate, hexit, haccounted⟩ :=
    h [3] _ _ _ (silentNode fiveSeconds) _ hrun rfl rfl ⟨0, 3⟩ List.mem_cons_self
  obtain rfl : fate = .late := by
    have hexit : (⟨0, 3⟩, fate) ∈ [((⟨0, 3⟩ : Ticket Nat), (Fate.late : Fate Nat))] := hexit
    exact (Prod.mk.inj (List.mem_singleton.mp hexit)).2
  exact haccounted

end TransactionStream

end Ethereyum
