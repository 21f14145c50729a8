/-
# `LiveBlocks` — the stream of a range of blocks, over its client

`Live.BlockStream` is the stream as the source has it: its queue holds the futures of
`get_blocks` and `get_block_range`, which the client made.  It does what the stream of `BlockStream`
does, with the same results, whatever else happens to the client (`live_blocks_simulated`).

So what `BlockComplete` says of any environment holds here of the one there is: a stream that
ended has yielded every block of its range, and each of them is what the server answered to a call
for this block (`streamed_from_server`).
-/
import Ethereyum.BlockProgress
import Ethereyum.BlockRange
import Ethereyum.LiveStream

namespace Ethereyum

namespace Live

/-! ## The stream -/

/-- `BlockStream`, without its client. -/
structure BlockStream where
  startBlock : Nat
  fromBlock : Nat
  toBlock : Nat
  bufferSize : Nat
  batchSize : Nat
  withTx : Bool
  queue : List (Queued Block)
  completed : Finset Nat

namespace BlockStream

/-- `BlockStream::new`. -/
def new (fromBlock toBlock : Nat) (withTx : Bool) : BlockStream :=
  { startBlock := fromBlock, fromBlock, toBlock, bufferSize := 5, batchSize := 10, withTx,
    queue := [], completed := ∅ }

/-- `BlockStream::with_options`. -/
def withOptions (fromBlock toBlock : Nat) (withTx : Bool) (batch buffer : Nat) : BlockStream :=
  { startBlock := fromBlock, fromBlock, toBlock, bufferSize := buffer, batchSize := batch, withTx,
    queue := [], completed := ∅ }

def queueCapacity (s : BlockStream) : Option Nat := checkedMul s.bufferSize s.batchSize

def halfCapacity (s : BlockStream) : Option Nat := s.queueCapacity.map (· / 2)

def remainingCapacity (s : BlockStream) : Option Nat := do
  let capacity ← s.queueCapacity
  let free ← checkedSub capacity s.queue.length
  checkedSub free 1

/-- The blocks of the range that were never completed. -/
def missingBlocks (s : BlockStream) : Option (List Nat) :=
  (Ethereyum.BlockStream.blockRange s.startBlock s.toBlock).map fun requested =>
    requested.filter fun n => n ∉ s.completed

/-- `self.queue.pop_front()`. -/
def pop (s : BlockStream) (c : Client) : Option (Queued Block) × BlockStream × Client :=
  ((popFront s.queue).1, { s with queue := (popFront s.queue).2 }, c)

section next
variable (ser : Nat → Value) (de : Value → Except Error (Option Block))

/-- `BlockStream::next`. -/
def next (s : BlockStream) (c : Client) (sent : Bool) (stamps : Nat → Nat) :
    Option (Option (Queued Block) × BlockStream × Client) := do
  if s.fromBlock == s.toBlock && s.queue.isEmpty then
    let missing ← s.missingBlocks
    if missing.isEmpty then
      return (none, s, c)
    else
      let (futs, c) := c.getBlocks ser de missing s.withTx sent
      return { s with queue := pushFutures stamps s.queue futs }.pop c
  else if s.fromBlock == s.toBlock && !s.queue.isEmpty then
    return s.pop c
  else
    let half ← s.halfCapacity
    if s.queue.length > half then
      return s.pop c
    else
      let blocksLeft ← checkedSub s.toBlock s.fromBlock
      let remaining ← s.remainingCapacity
      let getThisMany := min blocksLeft remaining
      let last ← checkedAdd s.fromBlock getThisMany
      let (futs, c) ← c.getBlockRange ser de s.fromBlock last s.withTx sent
      let fromBlock ← checkedAdd s.fromBlock getThisMany
      return { s with queue := pushFutures stamps s.queue futs, fromBlock }.pop c

/-- `BlockStream::poll`, in its two parts. -/
def ops : LiveOps BlockStream Block where
  next s c sent stamps := s.next ser de c sent stamps
  yield s b := b.number.map fun blockNum =>
    { s with completed := insert (blockNum % word) s.completed }
  keep s item := { s with queue := s.queue ++ [item] }

end next

/-! ## Its tickets -/

/-- The stream with tickets for its futures. -/
def ticketed (s : BlockStream) (queue : List (Nat × Ticket BlockRequest))
    (asked : List BlockRequest) : Ethereyum.BlockStream :=
  { startBlock := s.startBlock, fromBlock := s.fromBlock, toBlock := s.toBlock,
    bufferSize := s.bufferSize, batchSize := s.batchSize, withTx := s.withTx, queue,
    completed := s.completed, asked }

/-- The element of a batch that asks for a block. -/
def batchItem (ser : Nat → Value) (de : Value → Except Error (Option Block))
    (r : BlockRequest) : BatchItem (Option Block) :=
  ⟨"eth_getBlockByNumber", [ser r.number, .bool r.withTx], de⟩

end BlockStream

end Live

/-- The stream over an environment, in the two parts of its poll. -/
def BlockStream.ticketOps : TicketOps BlockStream BlockRequest Block where
  next := BlockStream.next
  yield s b := b.number.map fun blockNum =>
    { s with completed := insert (blockNum % word) s.completed }
  keep s item := { s with queue := s.queue ++ [item] }

theorem BlockStream.ticketOps_machine : ticketOps.machine = machine := by
  unfold TicketOps.machine machine
  congr 1
  funext s env
  unfold BlockStream.poll
  refine congrArg _ (funext ?_)
  rintro ⟨_ | item, s'⟩
  · rfl
  · have hsettle : ticketOps.settle s' item (env.fate item) = s'.settle item (env.fate item) := by
      cases env.fate item <;> rfl
    simp only [hsettle, Option.map_eq_bind]
    rfl

namespace Live.BlockStream

section matching
variable {ser : Nat → Value} {de : Value → Except Error (Option Block)} {s s' : BlockStream}
  {c c' : Client} {sent : Bool} {stamps : Nat → Nat} {r : Option (Queued Block)}

theorem getBlocks_eq (c : Client) (blocks : List Nat) (withTx sent : Bool) :
    c.getBlocks ser de blocks withTx sent =
      c.batchRequest ((blocks.map fun n => ⟨n, withTx⟩).map (batchItem ser de)) sent := by
  rw [Client.getBlocks, Client._getBlocks, List.map_map, List.map_map]
  rfl

/-- The stream with as many tickets as futures has as much room. -/
theorem ticketed_room {queue : List (Nat × Ticket BlockRequest)} (asked : List BlockRequest)
    (hlen : queue.length = s.queue.length) : queue.isEmpty = s.queue.isEmpty ∧
      (s.ticketed queue asked).remainingCapacity = s.remainingCapacity := by
  constructor
  · rw [Bool.eq_iff_iff, List.isEmpty_iff_length_eq_zero, List.isEmpty_iff_length_eq_zero, hlen]
  · simp only [Ethereyum.BlockStream.remainingCapacity, remainingCapacity, ticketed, hlen]
    rfl

/-- What a call of `next` does, to the futures and to their tickets: the stream has ended, or the
call takes the front of the queue, or it requests some blocks first. -/
theorem next_cases (h : s.next ser de c sent stamps = some (r, s', c')) :
    ((r, s', c') = (none, s, c) ∧ ∀ queue asked, queue.length = s.queue.length →
      ∀ env, (s.ticketed queue asked).next env = some (none, s.ticketed queue asked)) ∨
    ((r, s', c') = s.pop c ∧ ∀ queue asked, queue.length = s.queue.length →
      ∀ env, (s.ticketed queue asked).next env = some (s.ticketed queue asked).pop) ∨
    ∃ blocks from',
      (r, s', c') = BlockStream.pop
        { s with
          queue := pushFutures stamps s.queue (c.getBlocks ser de blocks s.withTx sent).1,
          fromBlock := from' }
        (c.getBlocks ser de blocks s.withTx sent).2 ∧
      ∀ queue asked, queue.length = s.queue.length → ∀ env,
        (s.ticketed queue asked).next env =
          some ((s.ticketed queue asked).pushed env blocks from').pop := by
  have hmissing : ∀ queue asked, (s.ticketed queue asked).missingBlocks = s.missingBlocks :=
    fun _ _ => rfl
  have hhalf : ∀ queue asked, (s.ticketed queue asked).halfCapacity = s.halfCapacity :=
    fun _ _ => rfl
  by_cases hreached : s.fromBlock = s.toBlock
  · cases hdrained : s.queue.isEmpty with
    | true =>
        cases hblocks : s.missingBlocks with
        | none => simp [next, hreached, hdrained, hblocks] at h
        | some blocks =>
            by_cases hnone : blocks = []
            · refine Or.inl ⟨?_, fun queue asked hlen env => ?_⟩
              · simpa [next, hreached, hdrained, hblocks, hnone] using h.symm
              · simp only [Ethereyum.BlockStream.next, hmissing, hblocks]
                simp [ticketed, hreached, (ticketed_room asked hlen).1, hdrained, hnone]
            · refine Or.inr (Or.inr ⟨blocks, s.fromBlock, ?_, fun queue asked hlen env => ?_⟩)
              · simpa [next, hreached, hdrained, hblocks, hnone] using h.symm
              · simp only [Ethereyum.BlockStream.next, hmissing, hblocks]
                simp [ticketed, hreached, (ticketed_room asked hlen).1, hdrained, hnone]
                rfl
    | false =>
        refine Or.inr (Or.inl ⟨?_, fun queue asked hlen env => ?_⟩)
        · simpa [next, hreached, hdrained] using h.symm
        · simp [Ethereyum.BlockStream.next, ticketed, hreached, (ticketed_room asked hlen).1,
            hdrained]
  · cases hcapacity : s.halfCapacity with
    | none => simp [next, hreached, hcapacity] at h
    | some half =>
        by_cases hfull : s.queue.length > half
        · refine Or.inr (Or.inl ⟨?_, fun queue asked hlen env => ?_⟩)
          · simpa [next, hreached, hcapacity, hfull] using h.symm
          · simp only [Ethereyum.BlockStream.next, hhalf, hcapacity]
            simp [ticketed, hreached, hlen, hfull]
        · simp only [next, hreached, hcapacity, hfull, beq_iff_eq, Bool.and_eq_true, false_and,
            if_false, Option.bind_eq_bind, Option.bind_some] at h
          obtain ⟨left, hleft, h⟩ := Option.bind_eq_some_iff.mp h
          obtain ⟨remaining, hfree, h⟩ := Option.bind_eq_some_iff.mp h
          obtain ⟨last, hlast, h⟩ := Option.bind_eq_some_iff.mp h
          obtain ⟨⟨futs, c₁⟩, hrange, h⟩ := Option.bind_eq_some_iff.mp h
          obtain ⟨from', hfrom, h⟩ := Option.bind_eq_some_iff.mp h
          obtain ⟨blocks, hblocks, hfuts⟩ := Option.map_eq_some_iff.mp hrange
          refine Or.inr (Or.inr ⟨blocks, from', ?_, fun queue asked hlen env => ?_⟩)
          · have hsame : c.getBlocks ser de blocks s.withTx sent = (futs, c₁) := hfuts
            rw [hsame]
            exact (Option.some.inj h).symm
          · have hticket : (s.ticketed queue asked).getBlockRange s.fromBlock last =
                some ((s.ticketed queue asked).getBlocks blocks) := by
              rw [Ethereyum.BlockStream.getBlockRange, hblocks, Option.map_some]
            simp only [Ethereyum.BlockStream.next, hhalf, hcapacity,
              (ticketed_room asked hlen).2, hfree]
            simp [ticketed, hreached, hlen, hfull, hleft, hlast]
            refine (congrArg (Option.bind · _) hticket).trans ?_
            exact congrArg (Option.bind · _) hfrom

end matching

/-- A fact about the stream of tickets that both parts of a poll keep. -/
structure Steady (J : Ethereyum.BlockStream → Prop) : Prop where
  next : ∀ {env t r t'}, J t → t.next env = some (r, t') → J t'
  yield : ∀ {t t' b}, J t → Ethereyum.BlockStream.ticketOps.yield t b = some t' → J t'
  keep : ∀ {t k}, J t → J (Ethereyum.BlockStream.ticketOps.keep t k)

theorem steady_true : Steady fun _ => True :=
  ⟨fun _ _ => trivial, fun _ _ => trivial, fun _ => trivial⟩

/-- A stream and the stream of its tickets, of which `J` holds. -/
def Ticketed (ser : Nat → Value) (de : Value → Except Error (Option Block))
    (J : Ethereyum.BlockStream → Prop) (made : List (YumFuture (Option Block))) (c : Client)
    (s : BlockStream) (t : Ethereyum.BlockStream) : Prop :=
  J t ∧ ∃ queue asked, t = s.ticketed queue asked ∧
    Mirrors (batchItem ser de) c made s.queue queue asked

section carries
variable {ser : Nat → Value} {de : Value → Except Error (Option Block)}
  {J : Ethereyum.BlockStream → Prop} {made : List (YumFuture (Option Block))} {c c' : Client}
  {s s' : BlockStream} {t : Ethereyum.BlockStream} {sent : Bool} {stamps : Nat → Nat}
  {r : Option (Queued Block)}

theorem sends (h : s.next ser de c sent stamps = some (r, s', c')) :
    c' = c ∨ ∃ keys : List BlockRequest,
      c' = (c.batchRequest (keys.map (batchItem ser de)) sent).2 := by
  rcases next_cases h with ⟨heq, _⟩ | ⟨heq, _⟩ | ⟨blocks, from', heq, _⟩
  · cases heq
    exact Or.inl rfl
  · cases heq
    exact Or.inl rfl
  · cases heq
    refine Or.inr ⟨blocks.map fun n => ⟨n, s.withTx⟩, ?_⟩
    rw [getBlocks_eq]

theorem next_ticketed (hJ : Steady J) (hnumbered : c.Numbered)
    (h : Ticketed ser de J made c s t) (hnext : s.next ser de c sent stamps = some (r, s', c')) :
    ∃ made' r' t', made <+: made' ∧ Ticketed ser de J made' c' s' t' ∧
      Option.Rel (Mirror made') r r' ∧
      ∀ env : PollEnv BlockRequest Block, env.Stamped stamps t.asked.length →
        t.next env = some (r', t') := by
  obtain ⟨hkeeps, queue, asked, rfl, hmirrors⟩ := h
  have hlen := hmirrors.queue.length_eq.symm
  rcases next_cases hnext with
    ⟨heq, hticket⟩ | ⟨heq, hticket⟩ | ⟨blocks, from', heq, hticket⟩
  · cases heq
    exact ⟨made, none, _, List.prefix_rfl, ⟨hkeeps, queue, asked, rfl, hmirrors⟩, .none,
      fun env _ => hticket queue asked hlen env⟩
  · cases heq
    obtain ⟨hfront, hrest⟩ := hmirrors.pop
    have hkeeps' := hJ.next hkeeps (hticket queue asked hlen Ethereyum.BlockStream.promptServer)
    exact ⟨made, _, _, List.prefix_rfl, ⟨hkeeps', _, asked, rfl, hrest⟩, hfront,
      fun env _ => hticket queue asked hlen env⟩
  · -- a batch goes out
    let keys : List BlockRequest := blocks.map fun n => ⟨n, s.withTx⟩
    obtain ⟨_, hgrows, futs, hwaiting, hfuts⟩ :=
      made_batchRequest hnumbered (batchItem ser de) keys sent
    rw [getBlocks_eq, hwaiting] at heq
    cases heq
    have hpushed := hmirrors.push hgrows hfuts stamps
    obtain ⟨hfront, hrest⟩ := hpushed.pop
    let t' : Ethereyum.BlockStream :=
      { s.ticketed (popFront (pushTickets stamps queue asked.length keys)).2 (asked ++ keys) with
        fromBlock := from' }
    have hpop : ∀ env : PollEnv BlockRequest Block, env.Stamped stamps asked.length →
        (s.ticketed queue asked).next env =
          some ((popFront (pushTickets stamps queue asked.length keys)).1, t') := by
      intro env hstamped
      rw [hticket queue asked hlen env]
      have hqueue := hstamped.push_eq queue keys
      simp only [Ethereyum.BlockStream.pushed, Ethereyum.BlockStream.futures,
        Ethereyum.BlockStream.getBlocks, Ethereyum.BlockStream.advance,
        Ethereyum.BlockStream.pop, ticketed, keys] at hqueue ⊢
      rw [hqueue]
      rfl
    have henv : (Carries.environment made c.oneshots stamps asked.length 0 :
      PollEnv BlockRequest Block).Stamped stamps asked.length := fun _ _ => rfl
    exact ⟨made ++ futs, _, t', List.prefix_append _ _,
      ⟨hJ.next hkeeps (hpop _ henv), _, asked ++ keys, rfl, hrest⟩, hfront, hpop⟩

/-- The stream over its client is carried out by the stream of its tickets. -/
theorem carries (hJ : Steady J) (ser : Nat → Value) (de : Value → Except Error (Option Block)) :
    Carries (ops ser de) Ethereyum.BlockStream.ticketOps (batchItem ser de)
      Ethereyum.BlockStream.asked (Ticketed ser de J) where
  sends hnext := sends hnext
  made := by
    rintro made c s t ⟨_, queue, asked, rfl, hmirrors⟩
    exact hmirrors.futures
  grows := by
    rintro made c c' s t ⟨hkeeps, queue, asked, rfl, hmirrors⟩ hgrows
    exact ⟨hkeeps, queue, asked, rfl, hmirrors.grows hgrows⟩
  next hnumbered hrel hnext := next_ticketed hJ hnumbered hrel hnext
  yield := by
    rintro made c s s' t b ⟨hkeeps, queue, asked, rfl, hmirrors⟩ hyield
    obtain ⟨n, hn, rfl⟩ := Option.map_eq_some_iff.mp hyield
    have hticket : Ethereyum.BlockStream.ticketOps.yield (s.ticketed queue asked) b =
        some { s.ticketed queue asked with completed := insert (n % word) s.completed } := by
      simp only [Ethereyum.BlockStream.ticketOps, hn, Option.map_some, ticketed]
    exact ⟨_, hticket, hJ.yield hkeeps hticket, queue, asked, rfl, hmirrors⟩
  keep := by
    rintro made c s t q k ⟨hkeeps, queue, asked, rfl, hmirrors⟩ hmirror
    refine ⟨hJ.keep hkeeps, queue ++ [k], asked, rfl, hmirrors.futures, ?_⟩
    exact List.rel_append hmirrors.queue (.cons hmirror .nil)

end carries

/-! ## What the stream yields -/

/-- The stream stays in its range, and so do its requests. -/
structure Ranged (fromBlock toBlock : Nat) (withTx : Bool) (t : Ethereyum.BlockStream) : Prop where
  proper : t.Proper
  start : t.startBlock = fromBlock
  stop : t.toBlock = toBlock
  tx : t.withTx = withTx
  within : ∀ r ∈ t.asked, (fromBlock ≤ r.number ∧ r.number ≤ toBlock) ∧ r.withTx = withTx

theorem steady_ranged (fromBlock toBlock : Nat) (withTx : Bool) :
    Steady (Ranged fromBlock toBlock withTx) where
  next := by
    intro env t r t' h hnext
    rcases Ethereyum.BlockStream.next_eq h.proper env with
      ⟨_, hended⟩ | ⟨blocks, from', item, rest, hadvance, _, htaken⟩
    · rw [hended] at hnext
      cases hnext
      exact h
    · rw [htaken] at hnext
      cases hnext
      obtain ⟨hge, hle⟩ := hadvance.bounds h.proper
      refine { h with proper := ?_, within := ?_ }
      · exact { h.proper with start_le := Nat.le_trans h.proper.start_le hge, from_le := hle }
      · intro q hq
        rcases List.mem_append.mp hq with hold | hnew
        · exact h.within q hold
        · obtain ⟨n, hn, rfl⟩ := List.mem_map.mp hnew
          have hwithin := hadvance.within h.proper n hn
          rw [h.start, h.stop] at hwithin
          exact ⟨hwithin, h.tx⟩
  yield := by
    intro t t' b h hyield
    obtain ⟨n, _, rfl⟩ := Option.map_eq_some_iff.mp hyield
    exact { h with proper := { h.proper with } }
  keep := by
    intro t k h
    exact { h with proper := { h.proper with } }

/-- The block is the server's answer to a call for the block `n`. -/
def Fetched (A : Server) (ser : Nat → Value) (de : Value → Except Error (Option Block))
    (withTx : Bool) (c : Client) (n : Nat) (b : Block) : Prop :=
  ∃ call ∈ c.calls, call.method = "eth_getBlockByNumber" ∧
    call.params = some [ser n, .bool withTx] ∧ Own A call de (.ok (some b))

/-- Asked for a block, the server answers with the block of that number, or with none. -/
def Truthful (A : Server) (ser : Nat → Value) (de : Value → Except Error (Option Block)) : Prop :=
  ∀ call n withTx b, call.method = "eth_getBlockByNumber" →
    call.params = some [ser n, .bool withTx] → Own A call de (.ok (some b)) → b.number = some n

end Live.BlockStream

open Live.BlockStream

section streams
variable {ser : Nat → Value} {de : Value → Except Error (Option Block)} {C : Codec}
  {fromBlock toBlock batch buffer : Nat} {withTx : Bool} {c : Client}
  {past : List (Op × List Registration)} {tr : List (LiveEvent × Option (Poll (Option Block)))}
  {ls : LiveStream Live.BlockStream Block}

theorem ticketed_start (ser : Nat → Value) (de : Value → Except Error (Option Block))
    {J : BlockStream → Prop}
    (hJ : J (BlockStream.withOptions fromBlock toBlock withTx batch buffer)) (c : Client) :
    Ticketed ser de J [] c (withOptions fromBlock toBlock withTx batch buffer)
      (BlockStream.withOptions fromBlock toBlock withTx batch buffer) :=
  ⟨hJ, [], [], rfl, .nil, .nil⟩

/-- A stream that was just made holds nothing. -/
theorem tracks_start {J : BlockStream → Prop}
    (hJ : J (BlockStream.withOptions fromBlock toBlock withTx batch buffer))
    (hnumbered : c.Numbered) :
    Tracks BlockStream.ticketOps BlockStream.asked (Ticketed ser de J) []
      ⟨withOptions fromBlock toBlock withTx batch buffer, none, c⟩
      (BlockStream.withOptions fromBlock toBlock withTx batch buffer) where
  numbered := hnumbered
  idle _ := ticketed_start ser de hJ c
  held q hq := by cases hq

/-- **A block stream over its client does what the stream of `BlockStream` does in some
environments**, with the same results, and between its polls it is in the same state: whatever
anybody else does with the client, at any time. -/
theorem live_blocks_simulated (hpast : (history C).Run Client.new past c)
    (hrun : ((ops ser de).machine C).Run
      ⟨withOptions fromBlock toBlock withTx batch buffer, none, c⟩ tr ls) :
    ∃ tr' t', BlockStream.machine.Run
        (BlockStream.withOptions fromBlock toBlock withTx batch buffer) tr' t' ∧
      tr'.map (fun e => e.2.result) = results tr ∧
      (ls.held = none → ∃ queue asked, t' = ls.stream.ticketed queue asked ∧
        queue.map Prod.fst = ls.stream.queue.map Prod.fst) := by
  obtain ⟨tr', t', hrun', hview, made, hlive⟩ :=
    ((carries steady_true ser de).simulation C).run
      ⟨[], tracks_start trivial (Client.numbered_of_run hpast)⟩ hrun
      (Mealy.along_of_forall fun _ _ _ => trivial)
  rw [BlockStream.ticketOps_machine] at hrun'
  refine ⟨tr', t', hrun', (observed_ticketResult tr').symm.trans hview, ?_⟩
  intro hidle
  obtain ⟨_, queue, asked, heq, hmirrors⟩ := hlive.idle hidle
  exact ⟨queue, asked, heq, hmirrors.stamps⟩

end streams

/-- The numbers of five blocks as JSON. -/
def hexNumber : Nat → Value
  | 7 => .string "0x7"
  | 8 => .string "0x8"
  | 9 => .string "0x9"
  | 10 => .string "0xa"
  | 11 => .string "0xb"
  | _ => .null

/-- Reads one of these blocks. -/
def readBlock : Value → Except Error (Option Block)
  | .object [("number", .string "0x7")] => .ok (some ⟨some 7⟩)
  | .object [("number", .string "0x8")] => .ok (some ⟨some 8⟩)
  | .object [("number", .string "0x9")] => .ok (some ⟨some 9⟩)
  | .object [("number", .string "0xa")] => .ok (some ⟨some 10⟩)
  | .object [("number", .string "0xb")] => .ok (some ⟨some 11⟩)
  | _ => .ok none

/-- The calls with these ids are answered with these blocks. -/
def blocksCome (answers : List (Nat × Nat)) : Op :=
  .frame (answers.map fun a => .success a.1 (.object [("number", hexNumber a.2)]))

/-- Five blocks in two windows: the block 8 is late and given up, and fetched again in the end. -/
def lateEvents : List LiveEvent :=
  [.next true fun _ => 0, .op (blocksCome [(1, 7)]), .settle 1,
   .next true fun _ => 1, .settle 2,
   .op (blocksCome [(4, 10), (3, 9)]), .next true fun _ => 2, .settle 3,
   -- the second window
   .next true fun _ => 3, .settle 4,
   .next true fun _ => 4, .settle fiveSeconds,
   .op (blocksCome [(6, 11), (5, 10)]), .next true fun _ => 5, .settle 6,
   .next true fun _ => 6, .settle 7,
   -- the block that is missing
   .next true fun _ => 7, .op (blocksCome [(7, 8)]), .settle 8,
   .next true fun _ => 8]

/-- The stream over these events, from a new client on. -/
def lateStream : Option (List (LiveEvent × Option (Poll (Option Block))) ×
    LiveStream Live.BlockStream Block) :=
  ((ops hexNumber readBlock).machine Client.updateCodec).exec
    ⟨withOptions 7 11 true 2 2, none, Client.new⟩ lateEvents

/-- What its polls return. -/
def lateResults : List (Poll (Option Block)) :=
  [.ok (.ready (some ⟨some 7⟩)), .ok .notReady, .ok (.ready (some ⟨some 9⟩)),
   .ok (.ready (some ⟨some 10⟩)), .ok .notReady, .ok (.ready (some ⟨some 10⟩)),
   .ok (.ready (some ⟨some 11⟩)), .ok (.ready (some ⟨some 8⟩)), .ok (.ready none)]

theorem lateStream_run : ∃ tr ls, lateStream = some (tr, ls) ∧ results tr = lateResults ∧
    ls.held = none ∧ ls.client.oneshots.length = 7 := by
  have hview : lateStream.map (fun r =>
      (results r.1, r.2.held.isNone, r.2.client.oneshots.length)) =
        some (lateResults, true, 7) := by decide +kernel
  obtain ⟨⟨tr, ls⟩, hexec, heq⟩ := Option.map_eq_some_iff.mp hview
  simp only [Prod.mk.injEq, Option.isNone_iff_eq_none] at heq
  exact ⟨tr, ls, hexec, heq⟩

theorem range_simulated : ∃ tr ls, lateStream = some (tr, ls) ∧
    ∃ tr' t', BlockStream.machine.Run (BlockStream.withOptions 7 11 true 2 2) tr' t' ∧
      tr'.map (fun e => e.2.result) = lateResults ∧
      ∃ queue asked, t' = ls.stream.ticketed queue asked ∧
        queue.map Prod.fst = ls.stream.queue.map Prod.fst := by
  obtain ⟨tr, ls, hexec, hpolls, hidle, _⟩ := lateStream_run
  obtain ⟨tr', t', hticket, hresults, hstate⟩ :=
    live_blocks_simulated Mealy.Run.nil (Mealy.run_of_exec hexec)
  exact ⟨tr, ls, hexec, tr', t', hticket, hresults.trans hpolls, hstate hidle⟩

section streams
variable {ser : Nat → Value} {de : Value → Except Error (Option Block)} {C : Codec} {A : Server}
  {fromBlock toBlock batch buffer : Nat} {withTx : Bool} {c : Client}
  {past : List (Op × List Registration)} {tr : List (LiveEvent × Option (Poll (Option Block)))}
  {ls : LiveStream Live.BlockStream Block}

/-- The stream of tickets behind a stream, and what the items of both were fetched for. -/
theorem fetched_of_run (hle : fromBlock ≤ toBlock) (hto : toBlock + 1 < word)
    (hpos : 1 ≤ batch * buffer) (hlt : batch * buffer < word)
    (hpast : (history C).Run Client.new past c)
    (hpast' : (history C).Along (Honest A) Client.new past)
    (hrun : ((ops ser de).machine C).Run
      ⟨withOptions fromBlock toBlock withTx batch buffer, none, c⟩ tr ls)
    (hrun' : ((ops ser de).machine C).Along (HonestUnder A)
      ⟨withOptions fromBlock toBlock withTx batch buffer, none, c⟩ tr)
    (hturn : ls.client.oneshots.length ≤ word) :
    (∃ tr' t', BlockStream.machine.Run
      (BlockStream.withOptions fromBlock toBlock withTx batch buffer) tr' t' ∧
      tr'.map (fun e => e.2.result) = results tr) ∧
    ∀ b ∈ itemsOf (results tr), ∃ n, (fromBlock ≤ n ∧ n ≤ toBlock) ∧
      Fetched A ser de withTx ls.client n b := by
  have hproper : (BlockStream.withOptions fromBlock toBlock withTx batch buffer).Proper :=
    BlockStream.Proper.withOptions hle hto hpos hlt
  have hranged : Ranged fromBlock toBlock withTx
      (BlockStream.withOptions fromBlock toBlock withTx batch buffer) :=
    ⟨hproper, rfl, rfl, rfl, fun r hr => absurd hr List.not_mem_nil⟩
  have hcarries := carries (steady_ranged fromBlock toBlock withTx) ser de
  obtain ⟨tr', t', hticket, hview, made, hlive, _, hearned, _⟩ :=
    (hcarries.simulation_earned A C False).run
      ⟨[], tracks_start hranged (Client.numbered_of_run hpast), exchanged_of_run hpast hpast',
        fun _ e he => absurd he List.not_mem_nil, False.elim⟩ hrun
      fun pre post e o ls' htr hpre => ⟨hrun' pre post e o ls' htr hpre, False.elim⟩
  have hresults : tr'.map (fun e => e.2.result) = results tr :=
    (observed_ticketResult tr').symm.trans hview
  refine ⟨⟨tr', t', BlockStream.ticketOps_machine ▸ hticket, hresults⟩, ?_⟩
  -- what was yielded was asked for, and what was asked for is in the range
  intro b hb
  obtain ⟨e, he, k, hpolled⟩ := TicketOps.polled_of_ready hticket (hresults ▸ hb)
  obtain ⟨s₁, t₁, r, call, hrel, hasked, hcall, hmethod, hparams, hown⟩ :=
    hcarries.call_of_earned hlive (hearned hturn e he k _ (some b) hpolled rfl)
  obtain ⟨hwithin, htx⟩ := hrel.1.within r (List.mem_of_getElem? hasked)
  refine ⟨r.number, hwithin, call, hcall, hmethod, ?_, hown⟩
  rw [hparams, ← htx]
  rfl

/-- The blocks of a stream that ended. -/
theorem yielded_of_ended (hle : fromBlock ≤ toBlock) (hto : toBlock + 1 < word)
    (hpos : 1 ≤ batch * buffer) (hlt : batch * buffer < word)
    (hpast : (history C).Run Client.new past c)
    (hpast' : (history C).Along (Honest A) Client.new past)
    (hrun : ((ops ser de).machine C).Run
      ⟨withOptions fromBlock toBlock withTx batch buffer, none, c⟩ tr ls)
    (hrun' : ((ops ser de).machine C).Along (HonestUnder A)
      ⟨withOptions fromBlock toBlock withTx batch buffer, none, c⟩ tr)
    (hturn : ls.client.oneshots.length ≤ word)
    (htrue : Truthful A ser de) (hended : .ok (.ready none) ∈ results tr) {n : Nat}
    (hge : fromBlock ≤ n) (hn : n ≤ toBlock) :
    ∃ b ∈ itemsOf (results tr), b.number = some n ∧ Fetched A ser de withTx ls.client n b := by
  obtain ⟨⟨tr', t', hticket, hresults⟩, hfetched⟩ :=
    fetched_of_run hle hto hpos hlt hpast hpast' hrun hrun' hturn
  -- the poll that ended the stream
  rw [← hresults] at hended
  obtain ⟨⟨env, out⟩, hmem, hdone⟩ := List.mem_map.mp hended
  obtain ⟨pre, post, rfl⟩ := List.append_of_mem hmem
  obtain ⟨t₁, hpre, hpost⟩ := hticket.split
  obtain ⟨t₂, hstep, _⟩ := Mealy.run_cons.mp hpost
  have hruns := BlockStream.runs_of_run (BlockStream.Proper.withOptions hle hto hpos hlt) rfl hpre
  have hended := BlockStream.ended_of_done hruns.proper hstep hdone
  obtain ⟨b, hb, m, hm, hmod⟩ := hruns.covered n (hruns.completed_of_ended hended ⟨hge, hn⟩)
  have hitem : b ∈ itemsOf (results tr) := by
    rw [← hresults, ← yields_eq, yields_append]
    exact List.mem_append_left _ hb
  obtain ⟨k, hk, call, hcall, hmethod, hparams, hown⟩ := hfetched b hitem
  have hnumber := htrue call k withTx b hmethod hparams hown
  obtain rfl : k = n := by
    obtain rfl := Option.some.inj (hm.symm.trans hnumber)
    rwa [Nat.mod_eq_of_lt (by omega)] at hmod
  exact ⟨b, hitem, hnumber, call, hcall, hmethod, hparams, hown⟩

/-- **A block stream that ended has yielded its range, as the server has it.**  Over a client that
talks to an honest server, while the counter makes no full turn: every item is the server's answer
to a call for a block of the range; and once a poll has returned `None`, every block of the range
was yielded, if the server answers with the blocks it is asked for. -/
theorem streamed_from_server (hle : fromBlock ≤ toBlock) (hto : toBlock + 1 < word)
    (hpos : 1 ≤ batch * buffer) (hlt : batch * buffer < word)
    (hpast : (history C).Run Client.new past c)
    (hpast' : (history C).Along (Honest A) Client.new past)
    (hrun : ((ops ser de).machine C).Run
      ⟨withOptions fromBlock toBlock withTx batch buffer, none, c⟩ tr ls)
    (hrun' : ((ops ser de).machine C).Along (HonestUnder A)
      ⟨withOptions fromBlock toBlock withTx batch buffer, none, c⟩ tr)
    (hturn : ls.client.oneshots.length ≤ word) :
    (∀ b ∈ itemsOf (results tr), ∃ n, (fromBlock ≤ n ∧ n ≤ toBlock) ∧
      Fetched A ser de withTx ls.client n b) ∧
    (Truthful A ser de → .ok (.ready none) ∈ results tr → ∀ n, fromBlock ≤ n → n ≤ toBlock →
      ∃ b ∈ itemsOf (results tr), b.number = some n ∧ Fetched A ser de withTx ls.client n b) :=
  ⟨(fetched_of_run hle hto hpos hlt hpast hpast' hrun hrun' hturn).2,
    fun htrue hended _ hge hn =>
      yielded_of_ended hle hto hpos hlt hpast hpast' hrun hrun' hturn htrue hended hge hn⟩

end streams

/-- A server that has every block. -/
def numberServer : Server := fun call rv => ∃ number,
  call.params = some [.string number, .bool true] ∧
    rv = .ok (.object [("number", .string number)])

/-- The server has the block that it is asked for. -/
theorem numberServer_truthful : Truthful numberServer hexNumber readBlock := by
  rintro call n withTx b _ hparams ⟨rv, ⟨number, hasked, rfl⟩, hread⟩
  have hnumber : hexNumber n = .string number := by
    have hsame := hparams.symm.trans hasked
    simp only [Option.some.injEq, List.cons.injEq] at hsame
    exact hsame.1
  unfold hexNumber at hnumber
  split at hnumber <;> cases hnumber <;> cases hread <;> rfl

/-- Whether a response has the block that one of the calls asked for. -/
def answersBlock (calls : List MethodCall) : RpcResponse → Bool
  | .success id (.object [("number", .string number)]) => calls.any fun call =>
      call.id == .num id && match call.params with
        | some [.string asked, .bool true] => asked == number
        | _ => false
  | _ => false

theorem answers_of_answersBlock {calls : List MethodCall} {r : RpcResponse}
    (h : answersBlock calls r = true) :
    Answers numberServer calls r.intoResponse.1 r.intoResponse.2 := by
  unfold answersBlock at h
  split at h
  · obtain ⟨call, hcall, hsame⟩ := List.any_eq_true.mp h
    obtain ⟨hid, hparams⟩ := Bool.and_eq_true_iff.mp hsame
    refine ⟨call, hcall, eq_of_beq hid, ?_⟩
    split at hparams
    · next hasked =>
        obtain rfl := eq_of_beq hparams
        exact ⟨_, hasked, rfl⟩
    · cases hparams
  · cases h

/-- Whether it is a frame of such responses. -/
def framesBlocks (c : Client) : Op → Bool
  | .frame rs => rs.all (answersBlock c.calls)
  | _ => false

theorem honest_of_framesBlocks {c : Client} {op : Op} (h : framesBlocks c op = true) :
    Honest numberServer c op := by
  cases op with
  | frame rs => exact fun r hr _ => answers_of_answersBlock (List.all_eq_true.mp h r hr)
  | _ => cases h

/-- Whether what comes in meanwhile is such a frame. -/
def framesUnder (ls : LiveStream Live.BlockStream Block) : LiveEvent → Bool
  | .op op => framesBlocks ls.client op
  | .next _ _ => true
  | .settle _ => true

theorem honest_of_framesUnder {ls : LiveStream Live.BlockStream Block} {e : LiveEvent}
    (h : framesUnder ls e = true) : HonestUnder numberServer ls e := by
  cases e with
  | op op => exact honest_of_framesBlocks h
  | _ => trivial

/-- The blocks come in after they were asked for. -/
theorem lateStream_honest {tr : List (LiveEvent × Option (Poll (Option Block)))}
    {ls : LiveStream Live.BlockStream Block} (h : lateStream = some (tr, ls)) :
    ((ops hexNumber readBlock).machine Client.updateCodec).Along (HonestUnder numberServer)
      ⟨withOptions 7 11 true 2 2, none, Client.new⟩ tr :=
  Mealy.along_of_checks (fun _ _ h => honest_of_framesUnder h) h (by decide +kernel)

/-- All five blocks are yielded, also the one that was given up. -/
theorem range_streamed : ∃ tr ls, lateStream = some (tr, ls) ∧ ∀ n, 7 ≤ n → n ≤ 11 →
    ∃ b ∈ itemsOf (results tr), b.number = some n ∧
      Fetched numberServer hexNumber readBlock true ls.client n b := by
  obtain ⟨tr, ls, hexec, hpolls, _, hlen⟩ := lateStream_run
  refine ⟨tr, ls, hexec, ?_⟩
  exact (streamed_from_server (A := numberServer) (by decide) (by decide) (by decide) (by decide)
    Mealy.Run.nil (Mealy.along_of_forall (by simp)) (Mealy.run_of_exec hexec)
    (lateStream_honest hexec) (by rw [hlen]; decide)).2 numberServer_truthful
    (by rw [hpolls]; simp [lateResults])

end Ethereyum
