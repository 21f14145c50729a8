/-
# `BlockRange` — the requests of `get_block_range`

`get_block_range` makes an inclusive range of a half-open one: its blocks are
`from..to + 1`.  They go out in one batch, in order, as calls of
`eth_getBlockByNumber`.  The sum is one of `u64`s, so that the last of all block numbers
can only be the end of a range that fails (`range_requested_iff`).

The code stands three times in the source: in `YumClient`, in the trait `BlockOps` of `ops`,
and with the same body in a trait of that name in `client/ops.rs`, which nothing
implements.  Here `Client` has it with the tables that `batch_request` writes, and
`BlockStream`, which implements the second, with the list of what it asked for.
-/
import Ethereyum.BlockStream
import Ethereyum.Tables

namespace Ethereyum

/-- `ethereum_models::BlockNumber`. -/
inductive BlockNumber where
  | name (n : String)
  | number (n : Nat)

/-- The JSON value of a `BlockNumber`; `ser` makes that of the `U256` of a number. -/
def BlockNumber.toValue (ser : Nat → Value) : BlockNumber → Value
  | .number n => ser n
  | .name n => .string n

namespace Client

section ops
variable (ser : Nat → Value) (de : Value → Except Error (Option Block))

/-- `_get_blocks`; `de` is `de::<Option<Block>>`. -/
def _getBlocks (c : Client) (blocks : List BlockNumber) (withTx sent : Bool) :
    YumBatchFuture (Option Block) × Client :=
  c.batchRequest (blocks.map fun block =>
    ⟨"eth_getBlockByNumber", [block.toValue ser, .bool withTx], de⟩) sent

/-- `get_blocks`. -/
def getBlocks (c : Client) (blocks : List Nat) (withTx sent : Bool) :
    YumBatchFuture (Option Block) × Client :=
  c._getBlocks ser de (blocks.map .number) withTx sent

/-- `get_block_range`. -/
def getBlockRange (c : Client) (fromBlock toBlock : Nat) (withTx sent : Bool) :
    Option (YumBatchFuture (Option Block) × Client) :=
  (BlockStream.blockRange fromBlock toBlock).map fun blocks =>
    c._getBlocks ser de (blocks.map .number) withTx sent

end ops

end Client

/-! ## What goes out -/

/-- The blocks of the range with both its ends, ascending. -/
structure Inclusive (fromBlock toBlock : Nat) (blocks : List Nat) : Prop where
  ascending : blocks.Pairwise (· < ·)
  mem_iff : ∀ n, n ∈ blocks ↔ fromBlock ≤ n ∧ n ≤ toBlock

/-- `get_block_range` hands one batch to `send`, with a call of `eth_getBlockByNumber` for
each block of the range, in order. -/
def Client.RequestsRange (ser : Nat → Value) (de : Value → Except Error (Option Block))
    (c : Client) (fromBlock toBlock : Nat) (withTx sent : Bool) : Prop :=
  ∃ fut c' calls blocks,
    c.getBlockRange ser de fromBlock toBlock withTx sent = some (fut, c') ∧
    Inclusive fromBlock toBlock blocks ∧ c'.wire = c.wire ++ [.batch calls] ∧
    calls.map (fun call => (call.method, call.params)) =
      blocks.map fun n => ("eth_getBlockByNumber", some [ser n, .bool withTx])

/-- A stream asks its client for each block of the range, in order. -/
def BlockStream.RequestsRange (s : BlockStream) (fromBlock toBlock : Nat) : Prop :=
  ∃ futs s' blocks, s.getBlockRange fromBlock toBlock = some (futs, s') ∧
    Inclusive fromBlock toBlock blocks ∧
    s'.asked = s.asked ++ blocks.map fun n => ⟨n, s.withTx⟩

/-- The calls of a batch are those of its elements, in order. -/
theorem Client.registerBatch_callsOf {α : Type} (requests : List (BatchItem α)) (c : Client) :
    (registerBatch requests c).1.map (fun call => (call.method, call.params)) =
      requests.map fun item => (item.method, some item.params) := by
  induction requests generalizing c with
  | nil => rfl
  | cons item rest ih =>
      rw [List.map_cons, ← ih c.register]
      rfl

/-- What `_get_blocks` hands to `send`. -/
theorem Client._getBlocks_wire (ser : Nat → Value) (de : Value → Except Error (Option Block))
    (c : Client) (blocks : List BlockNumber) (withTx sent : Bool) :
    ∃ calls, (c._getBlocks ser de blocks withTx sent).2.wire = c.wire ++ [.batch calls] ∧
      calls.map (fun call => (call.method, call.params)) =
        blocks.map fun b => ("eth_getBlockByNumber", some [b.toValue ser, .bool withTx]) := by
  let requests : List (BatchItem (Option Block)) := blocks.map fun b =>
    ⟨"eth_getBlockByNumber", [b.toValue ser, .bool withTx], de⟩
  refine ⟨(registerBatch requests c).1, ?_, ?_⟩
  · rw [_getBlocks, batchRequest_client, push, iterate_register_wire]
  · rw [registerBatch_callsOf, List.map_map]
    rfl

theorem BlockStream.lt_of_blockRange {fromBlock toBlock : Nat} {blocks : List Nat}
    (h : blockRange fromBlock toBlock = some blocks) : toBlock + 1 < word := by
  by_contra hnot
  rw [blockRange, checkedAdd, if_neg hnot] at h
  cases h

theorem inclusive_range' (fromBlock toBlock : Nat) :
    Inclusive fromBlock toBlock (List.range' fromBlock (toBlock + 1 - fromBlock)) where
  ascending := List.pairwise_lt_range'
  mem_iff n := by
    rw [List.mem_range'_1]
    omega

/-- **Both copies of `get_block_range` request the inclusive range, for any order of its
bounds, exactly when `to` is not the last of all block numbers.** -/
theorem range_requested_iff (fromBlock toBlock : Nat) :
    (∀ (ser : Nat → Value) (de : Value → Except Error (Option Block)) (c : Client)
      (withTx sent : Bool),
      c.RequestsRange ser de fromBlock toBlock withTx sent ↔ toBlock + 1 < word) ∧
    ∀ s : BlockStream, s.RequestsRange fromBlock toBlock ↔ toBlock + 1 < word := by
  refine ⟨?_, ?_⟩
  · intro ser de c withTx sent
    constructor
    · rintro ⟨_, _, _, _, hrange, _⟩
      obtain ⟨blocks, hblocks, _⟩ := Option.map_eq_some_iff.mp hrange
      exact BlockStream.lt_of_blockRange hblocks
    · intro hlt
      obtain ⟨calls, hwire, hcalls⟩ := c._getBlocks_wire ser de
        ((List.range' fromBlock (toBlock + 1 - fromBlock)).map .number) withTx sent
      rw [List.map_map] at hcalls
      exact ⟨_, _, calls, _, congrArg _ (BlockStream.blockRange_eq hlt),
        inclusive_range' fromBlock toBlock, hwire, hcalls⟩
  · intro s
    constructor
    · rintro ⟨_, _, _, hrange, _⟩
      obtain ⟨blocks, hblocks, _⟩ := Option.map_eq_some_iff.mp hrange
      exact BlockStream.lt_of_blockRange hblocks
    · intro hlt
      exact ⟨_, _, _, congrArg _ (BlockStream.blockRange_eq hlt),
        inclusive_range' fromBlock toBlock, rfl⟩

/-- The range of the last block alone: the sum overflows, and the block is not requested. -/
theorem last_block_not_requested :
    ¬ Client.new.RequestsRange (fun n => .number (toString n)) (fun _ => .error .json)
      (2 ^ 64 - 1) (2 ^ 64 - 1) true true ∧
    ¬ (BlockStream.new 0 0 true).RequestsRange (2 ^ 64 - 1) (2 ^ 64 - 1) := by
  refine ⟨?_, ?_⟩
  · rintro ⟨_, _, _, _, hrange, _⟩
    cases hrange
  · rintro ⟨_, _, _, hrange, _⟩
    cases hrange

end Ethereyum
