/-
# `BlockStream` — the lazy stream of a range of blocks

`next` has two phases.  While `from` is short of `to` it requests the range in
windows, each when the queue is at most half full; when they meet it drains the
queue.  With the queue empty it looks for the blocks of the range that did not
come through and requests those again, as often as it takes.

`next_eq` says once what a call of `next` can do: the stream has ended, or it
requested some blocks (`Advance`, one constructor for each branch) and took the
front of the queue.  Everything proved about the stream goes through it.
-/
import Ethereyum.LazyStream
import Mathlib.Data.Finset.Insert

namespace Ethereyum

/-! ## The stream -/

/-- `ethereum_models::Block`, of which the stream reads the number. -/
structure Block where
  number : Option Nat
  deriving DecidableEq

/-- A call of `eth_getBlockByNumber`. -/
structure BlockRequest where
  number : Nat
  withTx : Bool
  deriving DecidableEq

/-- `asked` stands for the client: the requests the stream made of it, in order. -/
structure BlockStream where
  startBlock : Nat
  fromBlock : Nat
  toBlock : Nat
  bufferSize : Nat
  batchSize : Nat
  withTx : Bool
  queue : List (Nat × Ticket BlockRequest)
  completed : Finset Nat
  asked : List BlockRequest

namespace BlockStream

/-- `BlockStream::new`. -/
def new (fromBlock toBlock : Nat) (withTx : Bool) : BlockStream :=
  { startBlock := fromBlock, fromBlock, toBlock, bufferSize := 5, batchSize := 10, withTx,
    queue := [], completed := ∅, asked := [] }

/-- `BlockStream::with_options`. -/
def withOptions (fromBlock toBlock : Nat) (withTx : Bool) (batch buffer : Nat) : BlockStream :=
  { startBlock := fromBlock, fromBlock, toBlock, bufferSize := buffer, batchSize := batch, withTx,
    queue := [], completed := ∅, asked := [] }

def queueCapacity (s : BlockStream) : Option Nat := checkedMul s.bufferSize s.batchSize

def halfCapacity (s : BlockStream) : Option Nat := s.queueCapacity.map (· / 2)

def remainingCapacity (s : BlockStream) : Option Nat := do
  let capacity ← s.queueCapacity
  let free ← checkedSub capacity s.queue.length
  checkedSub free 1

/-- The range `from..to + 1`. -/
def blockRange (fromBlock toBlock : Nat) : Option (List Nat) :=
  (checkedAdd toBlock 1).map fun stop => List.range' fromBlock (stop - fromBlock)

/-- `BlockOps::get_blocks`: the futures, in the order of the blocks. -/
def getBlocks (s : BlockStream) (blocks : List Nat) : List (Ticket BlockRequest) × BlockStream :=
  let calls := blocks.map fun n => { number := n, withTx := s.withTx }
  (ticketsFrom s.asked.length calls, { s with asked := s.asked ++ calls })

/-- `BlockOps::get_block_range`. -/
def getBlockRange (s : BlockStream) (fromBlock toBlock : Nat) :
    Option (List (Ticket BlockRequest) × BlockStream) :=
  (blockRange fromBlock toBlock).map s.getBlocks

/-- The blocks of the range that were never completed. -/
def missingBlocks (s : BlockStream) : Option (List Nat) :=
  (blockRange s.startBlock s.toBlock).map fun requested =>
    requested.filter fun n => n ∉ s.completed

/-- `self.queue.pop_front()`. -/
def pop (s : BlockStream) : Option (Nat × Ticket BlockRequest) × BlockStream :=
  ((popFront s.queue).1, { s with queue := (popFront s.queue).2 })

/-- `BlockStream::next`. -/
def next (env : PollEnv BlockRequest Block) (s : BlockStream) :
    Option (Option (Nat × Ticket BlockRequest) × BlockStream) := do
  if s.fromBlock == s.toBlock && s.queue.isEmpty then
    let missing ← s.missingBlocks
    if missing.isEmpty then
      return (none, s)
    else
      let (futs, s) := s.getBlocks missing
      return { s with queue := env.push s.queue futs }.pop
  else if s.fromBlock == s.toBlock && !s.queue.isEmpty then
    return s.pop
  else
    let half ← s.halfCapacity
    if s.queue.length > half then
      return s.pop
    else
      let blocksLeft ← checkedSub s.toBlock s.fromBlock
      let remaining ← s.remainingCapacity
      let getThisMany := min blocksLeft remaining
      let last ← checkedAdd s.fromBlock getThisMany
      let (futs, s) ← s.getBlockRange s.fromBlock last
      let fromBlock ← checkedAdd s.fromBlock getThisMany
      return { s with queue := env.push s.queue futs, fromBlock }.pop

/-- The rest of the body of `poll`, once the future of `item` had its fate:
`none` is the panic of `expect` on a block without a number. -/
def settle (s : BlockStream) (item : Nat × Ticket BlockRequest) : Fate Block → Option BlockStream
  | .yielded b => b.number.map fun blockNum =>
      { s with completed := insert (blockNum % word) s.completed }
  | .kept => some { s with queue := s.queue ++ [item] }
  | _ => some s

/-- `BlockStream::poll`. -/
def poll (env : PollEnv BlockRequest Block) (s : BlockStream) :
    Option (PollOut BlockRequest Block × BlockStream) := do
  match ← s.next env with
  | (none, s) => return (.done, s)
  | (some item, s) =>
      let s ← s.settle item (env.fate item)
      return (.of item (env.fate item), s)

/-- The stream as a machine, polled again and again. -/
def machine : Mealy BlockStream (PollEnv BlockRequest Block) (PollOut BlockRequest Block) where
  step s env := s.poll env

/-! ## What a call of `next` does -/

def capacity (s : BlockStream) : Nat := s.bufferSize * s.batchSize

/-- The blocks of the range that were never completed, ascending. -/
def missing (s : BlockStream) : List Nat :=
  (List.range' s.startBlock (s.toBlock + 1 - s.startBlock)).filter fun n => n ∉ s.completed

/-- What every stream over a proper range with a proper buffer keeps. -/
structure Proper (s : BlockStream) : Prop where
  start_le : s.startBlock ≤ s.fromBlock
  from_le : s.fromBlock ≤ s.toBlock
  to_lt : s.toBlock + 1 < word
  capacity_pos : 1 ≤ s.capacity
  capacity_lt : s.capacity < word

/-- Nothing is left to request, to wait for or to recover. -/
structure Ended (s : BlockStream) : Prop where
  reached : s.fromBlock = s.toBlock
  queue : s.queue = []
  missing : s.missing = []

/-- `Advance s blocks from'`: a call of `next` requests `blocks` and moves `from`
to `from'`. -/
inductive Advance (s : BlockStream) : List Nat → Nat → Prop
  | recover (reached : s.fromBlock = s.toBlock) (empty : s.queue = []) (left : s.missing ≠ []) :
      Advance s s.missing s.fromBlock
  | drain (reached : s.fromBlock = s.toBlock) (left : s.queue ≠ []) : Advance s [] s.fromBlock
  | busy (short : s.fromBlock < s.toBlock) (full : s.queue.length > s.capacity / 2) :
      Advance s [] s.fromBlock
  | fetch (many : Nat) (short : s.fromBlock < s.toBlock)
      (room : s.queue.length ≤ s.capacity / 2)
      (many_eq : many = min (s.toBlock - s.fromBlock) (s.capacity - s.queue.length - 1)) :
      Advance s (List.range' s.fromBlock (many + 1)) (s.fromBlock + many)

/-- The futures of `blocks`. -/
def futures (s : BlockStream) (blocks : List Nat) : List (Ticket BlockRequest) :=
  (s.getBlocks blocks).1

/-- The stream after it requested `blocks`, moved to `from'` and is left with `queue`. -/
def advance (s : BlockStream) (blocks : List Nat) (fromBlock : Nat)
    (queue : List (Nat × Ticket BlockRequest)) : BlockStream :=
  { (s.getBlocks blocks).2 with fromBlock, queue }

section next
variable {s : BlockStream} {env : PollEnv BlockRequest Block}

theorem mem_missing {n : Nat} :
    n ∈ s.missing ↔ (s.startBlock ≤ n ∧ n ≤ s.toBlock) ∧ n ∉ s.completed := by
  simp only [missing, List.mem_filter, List.mem_range'_1, decide_eq_true_eq]
  refine and_congr_left ?_
  intro _
  omega

theorem Proper.queueCapacity_eq (h : s.Proper) : s.queueCapacity = some s.capacity :=
  checkedMul_of_lt h.capacity_lt

theorem Proper.halfCapacity_eq (h : s.Proper) : s.halfCapacity = some (s.capacity / 2) := by
  simp [halfCapacity, h.queueCapacity_eq]

theorem Proper.remainingCapacity_eq (h : s.Proper) (hroom : s.queue.length ≤ s.capacity / 2) :
    s.remainingCapacity = some (s.capacity - s.queue.length - 1) := by
  have hpos := h.capacity_pos
  have hfree : checkedSub s.capacity s.queue.length = some (s.capacity - s.queue.length) :=
    checkedSub_of_le (by omega)
  have hrest : checkedSub (s.capacity - s.queue.length) 1 =
      some (s.capacity - s.queue.length - 1) := checkedSub_of_le (by omega)
  simp [remainingCapacity, h.queueCapacity_eq, hfree, hrest]

theorem blockRange_eq {fromBlock toBlock : Nat} (h : toBlock + 1 < word) :
    blockRange fromBlock toBlock = some (List.range' fromBlock (toBlock + 1 - fromBlock)) := by
  rw [blockRange, checkedAdd_of_lt h, Option.map_some]

theorem Proper.missingBlocks_eq (h : s.Proper) : s.missingBlocks = some s.missing := by
  rw [missingBlocks, blockRange_eq h.to_lt]
  rfl

/-- The stream with the futures of `blocks` pushed, before it pops. -/
def pushed (env : PollEnv BlockRequest Block) (s : BlockStream) (blocks : List Nat)
    (fromBlock : Nat) : BlockStream :=
  s.advance blocks fromBlock (env.push s.queue (s.futures blocks))

theorem pushed_nil : s.pushed env [] s.fromBlock = s := by
  simp [pushed, advance, futures, getBlocks, ticketsFrom, PollEnv.push]

theorem length_futures (blocks : List Nat) : (s.futures blocks).length = blocks.length := by
  simp [futures, getBlocks]

/-- Each future asks for its block, in the order of the blocks. -/
theorem futures_numbers (blocks : List Nat) :
    (s.futures blocks).map (fun f => f.key.number) = blocks := by
  refine List.ext_getElem (by simp [futures, getBlocks]) ?_
  intro i _ _
  simp [futures, getBlocks, ticketsFrom]

/-- The block numbers a queue asks for. -/
def numbers (queue : List (Nat × Ticket BlockRequest)) : List Nat :=
  queue.map fun item => item.2.key.number

theorem numbers_push (blocks : List Nat) :
    numbers (env.push s.queue (s.futures blocks)) = numbers s.queue ++ blocks := by
  rw [← s.futures_numbers blocks]
  simp [numbers, PollEnv.push, Function.comp_def, futures_numbers]

theorem pop_pushed {blocks : List Nat} {from' : Nat} (h : s.queue ≠ [] ∨ blocks ≠ []) :
    ∃ item rest, env.push s.queue (s.futures blocks) = item :: rest ∧
      (s.pushed env blocks from').pop = (some item, s.advance blocks from' rest) := by
  have hne : env.push s.queue (s.futures blocks) ≠ [] := by
    rcases h with h | h
    · simp [PollEnv.push, h]
    · have hfutures : s.futures blocks ≠ [] := by
        rw [← List.length_pos_iff, length_futures, List.length_pos_iff]
        exact h
      simp [PollEnv.push, hfutures]
  obtain ⟨item, rest, hqueue⟩ := List.exists_cons_of_ne_nil hne
  exact ⟨item, rest, hqueue, by simp [pop, popFront, pushed, advance, hqueue]⟩

/-- What a call of `next` pops from, branch by branch. -/
theorem next_pop (h : s.Proper) (env : PollEnv BlockRequest Block) :
    (s.Ended ∧ s.next env = some (none, s)) ∨
    ∃ blocks from', Advance s blocks from' ∧ s.next env = some (s.pushed env blocks from').pop := by
  rcases Nat.eq_or_lt_of_le h.from_le with hreached | hshort
  · cases hqueue : s.queue with
    | nil =>
        by_cases hmissing : s.missing = []
        · refine Or.inl ⟨⟨hreached, hqueue, hmissing⟩, ?_⟩
          simp [next, hreached, hqueue, h.missingBlocks_eq, hmissing]
        · refine Or.inr ⟨_, _, .recover hreached hqueue hmissing, ?_⟩
          simp [next, hreached, hqueue, h.missingBlocks_eq, hmissing, pushed, advance, futures,
            getBlocks]
    | cons item rest =>
        refine Or.inr ⟨_, _, .drain hreached (by simp [hqueue]), ?_⟩
        rw [pushed_nil]
        simp [next, hreached, hqueue]
  · have hne : s.fromBlock ≠ s.toBlock := Nat.ne_of_lt hshort
    by_cases hfull : s.queue.length > s.capacity / 2
    · refine Or.inr ⟨_, _, .busy hshort hfull, ?_⟩
      rw [pushed_nil]
      simp [next, hne, h.halfCapacity_eq, hfull]
    · have hroom : s.queue.length ≤ s.capacity / 2 := Nat.le_of_not_lt hfull
      refine Or.inr ⟨_, _, .fetch _ hshort hroom rfl, ?_⟩
      have hto := h.to_lt
      generalize hmany : min (s.toBlock - s.fromBlock) (s.capacity - s.queue.length - 1) = many
      have hle : s.fromBlock + many ≤ s.toBlock := by omega
      have hleft : checkedSub s.toBlock s.fromBlock = some (s.toBlock - s.fromBlock) :=
        checkedSub_of_le h.from_le
      have hlast : checkedAdd s.fromBlock many = some (s.fromBlock + many) :=
        checkedAdd_of_lt (by omega)
      have hrange : blockRange s.fromBlock (s.fromBlock + many) =
          some (List.range' s.fromBlock (many + 1)) := by
        rw [blockRange_eq (by omega), Nat.add_assoc, Nat.add_sub_cancel_left]
      simp [next, hne, h.halfCapacity_eq, hfull, hleft, h.remainingCapacity_eq hroom, hmany, hlast,
        getBlockRange, hrange, pushed, advance, futures, getBlocks]

/-- A call of `next` on a proper stream: either it has ended, or the call
requests some blocks and takes the front of the queue, which is not empty then. -/
theorem next_eq (h : s.Proper) (env : PollEnv BlockRequest Block) :
    (s.Ended ∧ s.next env = some (none, s)) ∨
    ∃ blocks from' item rest, Advance s blocks from' ∧
      env.push s.queue (s.futures blocks) = item :: rest ∧
      s.next env = some (some item, s.advance blocks from' rest) := by
  rcases next_pop h env with hended | ⟨blocks, from', hadvance, hnext⟩
  · exact Or.inl hended
  · have hne : s.queue ≠ [] ∨ blocks ≠ [] := by
      cases hadvance with
      | recover _ _ left => exact Or.inr left
      | drain _ left => exact Or.inl left
      | busy _ full => exact Or.inl fun hnil => by simp [hnil] at full
      | fetch many _ _ _ => exact Or.inr (by simp)
    obtain ⟨item, rest, hqueue, hpop⟩ := pop_pushed hne
    exact Or.inr ⟨blocks, from', item, rest, hadvance, hqueue, hnext.trans (congrArg some hpop)⟩

/-! ## What a poll does -/

theorem poll_of_ended {s' : BlockStream} (h : s.next env = some (none, s')) :
    s.poll env = some (.done, s') := by
  simp [poll, h]

theorem poll_of_item {s' : BlockStream} {item : Nat × Ticket BlockRequest}
    (h : s.next env = some (some item, s')) :
    s.poll env = (s'.settle item (env.fate item)).map fun s'' =>
      (.of item (env.fate item), s'') := by
  simp [poll, h, Option.map_eq_bind]

theorem settle_yielded (item : Nat × Ticket BlockRequest) {n : Nat} (hn : n < word) :
    s.settle item (.yielded ⟨some n⟩) = some { s with completed := insert n s.completed } := by
  simp only [settle, Option.map_some, Nat.mod_eq_of_lt hn]

/-- A future that was settled changes the queue and what is completed, nothing else. -/
theorem settle_frame {item : Nat × Ticket BlockRequest} {fate : Fate Block} {s' : BlockStream}
    (h : s.settle item fate = some s') : ∃ queue completed, s' = { s with queue, completed } := by
  cases fate with
  | yielded b =>
      obtain ⟨n, _, rfl⟩ := Option.map_eq_some_iff.mp h
      exact ⟨_, _, rfl⟩
  | null => cases h; exact ⟨_, _, rfl⟩
  | failed e => cases h; exact ⟨_, _, rfl⟩
  | late => cases h; exact ⟨_, _, rfl⟩
  | kept => cases h; exact ⟨_, _, rfl⟩

theorem settle_fields {item : Nat × Ticket BlockRequest} {fate : Fate Block} {s' : BlockStream}
    (h : s.settle item fate = some s') :
    s'.startBlock = s.startBlock ∧ s'.fromBlock = s.fromBlock ∧ s'.toBlock = s.toBlock ∧
    s'.capacity = s.capacity := by
  obtain ⟨_, _, rfl⟩ := settle_frame h
  exact ⟨rfl, rfl, rfl, rfl⟩

theorem Advance.bounds {blocks : List Nat} {from' : Nat} (h : Advance s blocks from')
    (hproper : s.Proper) : s.fromBlock ≤ from' ∧ from' ≤ s.toBlock := by
  have hle := hproper.from_le
  cases h with
  | recover => exact ⟨le_rfl, hle⟩
  | drain => exact ⟨le_rfl, hle⟩
  | busy => exact ⟨le_rfl, hle⟩
  | fetch many short room many_eq => omega

/-- A poll of a proper stream returns `None` when it has ended, and otherwise
settles what it took from the front of the queue. -/
theorem poll_cases {out : PollOut BlockRequest Block} {s' : BlockStream} (h : s.Proper)
    (hstep : s.poll env = some (out, s')) :
    (s.Ended ∧ out = .done ∧ s' = s) ∨
    ∃ blocks from' item rest, Advance s blocks from' ∧
      env.push s.queue (s.futures blocks) = item :: rest ∧
      (s.advance blocks from' rest).settle item (env.fate item) = some s' ∧
      out = .of item (env.fate item) := by
  rcases next_eq h env with ⟨hended, hnext⟩ | ⟨blocks, from', item, rest, hadvance, hqueue, hnext⟩
  · rw [poll_of_ended hnext] at hstep
    cases hstep
    exact Or.inl ⟨hended, rfl, rfl⟩
  · rw [poll_of_item hnext] at hstep
    obtain ⟨s'', hsettle, heq⟩ := Option.map_eq_some_iff.mp hstep
    cases heq
    exact Or.inr ⟨blocks, from', item, rest, hadvance, hqueue, hsettle, rfl⟩

/-- A poll of a proper stream does not panic on blocks that have a number. -/
theorem poll_total (h : s.Proper)
    (hnumber : ∀ f b, env.answer f = .ok (.ready (some b)) → b.number ≠ none) :
    ∃ out s', s.poll env = some (out, s') := by
  rcases next_eq h env with ⟨_, hnext⟩ | ⟨blocks, from', item, rest, _, _, hnext⟩
  · exact ⟨_, _, poll_of_ended hnext⟩
  · have hsettle : ∃ s', (s.advance blocks from' rest).settle item (env.fate item) = some s' := by
      cases hfate : env.fate item with
      | yielded b =>
          have hanswer := PollEnv.answer_of_yielded hfate
          obtain ⟨n, hn⟩ := Option.ne_none_iff_exists'.mp (hnumber _ _ hanswer)
          exact ⟨_, by rw [settle, hn, Option.map_some]⟩
      | null => exact ⟨_, rfl⟩
      | failed e => exact ⟨_, rfl⟩
      | late => exact ⟨_, rfl⟩
      | kept => exact ⟨_, rfl⟩
    obtain ⟨s', hs'⟩ := hsettle
    exact ⟨_, _, by rw [poll_of_item hnext, hs', Option.map_some]⟩

theorem Proper.poll {out : PollOut BlockRequest Block} {s' : BlockStream} (h : s.Proper)
    (hstep : s.poll env = some (out, s')) : s'.Proper := by
  rcases poll_cases h hstep with ⟨_, _, rfl⟩ | ⟨blocks, from', item, rest, hadvance, _, hsettle, _⟩
  · exact h
  · obtain ⟨hstart, hfrom, hto, hcapacity⟩ := settle_fields hsettle
    obtain ⟨hge, hle⟩ := hadvance.bounds h
    exact {
      start_le := by rw [hstart, hfrom]; exact Nat.le_trans h.start_le hge
      from_le := by rw [hfrom, hto]; exact hle
      to_lt := by rw [hto]; exact h.to_lt
      capacity_pos := by rw [hcapacity]; exact h.capacity_pos
      capacity_lt := by rw [hcapacity]; exact h.capacity_lt }

theorem Proper.withOptions {fromBlock toBlock batch buffer : Nat} {withTx : Bool}
    (hle : fromBlock ≤ toBlock) (hto : toBlock + 1 < word) (hpos : 1 ≤ batch * buffer)
    (hlt : batch * buffer < word) :
    (withOptions fromBlock toBlock withTx batch buffer).Proper where
  start_le := le_rfl
  from_le := hle
  to_lt := hto
  capacity_pos := by
    rw [capacity, BlockStream.withOptions, Nat.mul_comm]
    exact hpos
  capacity_lt := by
    rw [capacity, BlockStream.withOptions, Nat.mul_comm]
    exact hlt

theorem Proper.new {fromBlock toBlock : Nat} {withTx : Bool} (hle : fromBlock ≤ toBlock)
    (hto : toBlock + 1 < word) : (new fromBlock toBlock withTx).Proper :=
  Proper.withOptions hle hto (by decide) (by decide)

end next

/-- Every stream a proper one runs to is proper. -/
theorem Proper.run {s s' : BlockStream}
    {tr : List (PollEnv BlockRequest Block × PollOut BlockRequest Block)} (h : s.Proper)
    (hrun : machine.Run s tr s') : s'.Proper :=
  hrun.invariant (I := fun _ s => s.Proper) h fun _ hs hstep => Proper.poll hs hstep

end BlockStream

end Ethereyum
