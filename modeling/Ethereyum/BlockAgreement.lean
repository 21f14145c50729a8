/-
# `BlockAgreement` — the stream of a range and its batch yield the same blocks

The blocks of a range can be had in two ways:

    get_block_range    one batch for the whole range
    get_block_stream   many small ones, asked for as the queue has room, each block again
                       until it is there

Against a server that has one answer to a call, however often it is asked, the two agree: the
batch returns the blocks of the range in order, and the stream that ended has yielded these
blocks and no others (`streamed_iff_in_range`).  The batch fails as a whole where the stream asks
again, so nothing is said of a batch that failed.
-/
import Ethereyum.LiveBlocks

namespace Ethereyum

open Live.BlockStream

/-! ## What the server has -/

/-- The server has one answer to a method with its parameters. -/
def Consistent (A : Server) : Prop :=
  ∀ call call' rv rv', call.method = call'.method → call.params = call'.params →
    A call rv → A call' rv' → rv = rv'

/-- Asked for the block `n`, the server answers with `b`. -/
def Has (A : Server) (ser : Nat → Value) (de : Value → Except Error (Option Block))
    (withTx : Bool) (n : Nat) (b : Option Block) : Prop :=
  ∃ call : MethodCall, call.method = "eth_getBlockByNumber" ∧
    call.params = some [ser n, .bool withTx] ∧ Own A call de (.ok b)

section agreement
variable {ser : Nat → Value} {de : Value → Except Error (Option Block)} {C C₁ : Codec} {A : Server}
  {fromBlock toBlock batch buffer n : Nat} {withTx : Bool} {c c₁ c₂ : Client} {b b' : Option Block}
  {past past₁ : List (Op × List Registration)}
  {tr : List (LiveEvent × Option (Poll (Option Block)))}
  {ls : LiveStream Live.BlockStream Block}
  {tr₁ : List (Event × Option (Poll (List (Option Block))))}
  {s s' : Client × YumBatchFuture (Option Block)} {fut : YumBatchFuture (Option Block)}
  {bs : List (Option Block)}

theorem Has.eq (hone : Consistent A) (h : Has A ser de withTx n b)
    (h' : Has A ser de withTx n b') : b = b' := by
  obtain ⟨call, hmethod, hparams, rv, hanswer, hread⟩ := h
  obtain ⟨call', hmethod', hparams', rv', hanswer', hread'⟩ := h'
  obtain rfl := hone call call' rv rv' (hmethod.trans hmethod'.symm)
    (hparams.trans hparams'.symm) hanswer hanswer'
  exact Except.ok.inj (hread.symm.trans hread')

theorem Live.BlockStream.Fetched.has {b : Block} (h : Fetched A ser de withTx c n b) :
    Has A ser de withTx n (some b) := by
  obtain ⟨call, _, hmethod, hparams, hown⟩ := h
  exact ⟨call, hmethod, hparams, hown⟩

/-- A batch for a range that is ready returns what the server has, block by block. -/
theorem range_has (hpast : (history C).Run Client.new past c₁)
    (hpast' : (history C).Along (Honest A) Client.new past)
    (hrange : c₁.getBlockRange ser de fromBlock toBlock withTx true = some (fut, c₂))
    (hrun : (batchMachine C (Option Block)).Run (c₂, fut) tr₁ s)
    (hrun' : (batchMachine C (Option Block)).Along (HonestBeside A) (c₂, fut) tr₁)
    (hturn : s.1.oneshots.length ≤ word)
    (hpoll : (batchMachine C (Option Block)).step s .poll = some (some (.ok (.ready bs)), s')) :
    List.Forall₂ (Has A ser de withTx) (List.range' fromBlock (toBlock + 1 - fromBlock)) bs := by
  obtain ⟨blocks, hblocks, heq⟩ := Option.map_eq_some_iff.mp hrange
  have hto : toBlock + 1 < word := BlockStream.lt_of_blockRange hblocks
  obtain rfl := Option.some.inj ((BlockStream.blockRange_eq hto).symm.trans hblocks)
  -- the batch is one for the blocks of the range
  have hbatch : c₁.getBlocks ser de (List.range' fromBlock (toBlock + 1 - fromBlock)) withTx true =
      (fut, c₂) := heq
  rw [getBlocks_eq] at hbatch
  cases hbatch
  obtain ⟨hunder, hseated⟩ := batch_underway hpast hpast' hrun hrun' hturn
  have htells := hunder.tellsAll hseated (sentOut_seats (exchanged_of_run hpast hpast') _) hturn
    hpoll
  have hown := htells.ready bs rfl
  rw [List.forall₂_iff_get] at hown ⊢
  obtain ⟨hlen, hown⟩ := hown
  rw [Client.seats, List.length_mapIdx, List.length_map, List.length_map] at hlen
  refine ⟨hlen, ?_⟩
  intro i h₁ h₂
  have hi := hown i (by simpa [Client.seats] using h₁) h₂
  simp only [Client.seats, List.get_eq_getElem, List.getElem_mapIdx, List.getElem_map,
    batchItem] at hi
  exact ⟨_, rfl, rfl, hi⟩

/-- **The stream of a range and its batch yield the same blocks.**  Against a server that has one
answer to a call, and answers with the blocks it is asked for: when a batch for a range is ready
and a stream of that range has ended, each over its own client and whatever else that does, then
the batch has all the blocks of the range in order, and the items of the stream are these. -/
theorem streamed_iff_in_range (hle : fromBlock ≤ toBlock) (hpos : 1 ≤ batch * buffer)
    (hlt : batch * buffer < word) (hone : Consistent A) (htrue : Truthful A ser de)
    (hpast₁ : (history C₁).Run Client.new past₁ c₁)
    (hpast₁' : (history C₁).Along (Honest A) Client.new past₁)
    (hrange : c₁.getBlockRange ser de fromBlock toBlock withTx true = some (fut, c₂))
    (hrun₁ : (batchMachine C₁ (Option Block)).Run (c₂, fut) tr₁ s)
    (hrun₁' : (batchMachine C₁ (Option Block)).Along (HonestBeside A) (c₂, fut) tr₁)
    (hturn₁ : s.1.oneshots.length ≤ word)
    (hpoll : (batchMachine C₁ (Option Block)).step s .poll = some (some (.ok (.ready bs)), s'))
    (hpast : (history C).Run Client.new past c)
    (hpast' : (history C).Along (Honest A) Client.new past)
    (hrun : ((ops ser de).machine C).Run
      ⟨withOptions fromBlock toBlock withTx batch buffer, none, c⟩ tr ls)
    (hrun' : ((ops ser de).machine C).Along (HonestUnder A)
      ⟨withOptions fromBlock toBlock withTx batch buffer, none, c⟩ tr)
    (hturn : ls.client.oneshots.length ≤ word) (hended : .ok (.ready none) ∈ results tr) :
    bs.map (·.bind Block.number) =
      (List.range' fromBlock (toBlock + 1 - fromBlock)).map some ∧
    ∀ b, b ∈ itemsOf (results tr) ↔ some b ∈ bs := by
  have hto : toBlock + 1 < word := by
    obtain ⟨blocks, hblocks, _⟩ := Option.map_eq_some_iff.mp hrange
    exact BlockStream.lt_of_blockRange hblocks
  have hbatch := range_has hpast₁ hpast₁' hrange hrun₁ hrun₁' hturn₁ hpoll
  obtain ⟨_, hfetched⟩ := fetched_of_run hle hto hpos hlt hpast hpast' hrun hrun' hturn
  have hyielded : ∀ n ∈ List.range' fromBlock (toBlock + 1 - fromBlock),
      ∃ b ∈ itemsOf (results tr), b.number = some n ∧ Has A ser de withTx n (some b) := by
    intro n hn
    rw [List.mem_range'_1] at hn
    obtain ⟨b, hb, hnumber, hfetch⟩ := yielded_of_ended hle hto hpos hlt hpast hpast' hrun hrun'
      hturn htrue hended (n := n) (by omega) (by omega)
    exact ⟨b, hb, hnumber, hfetch.has⟩
  refine ⟨?_, fun b => ⟨?_, ?_⟩⟩
  · -- where the stream has a block, the batch has this one
    rw [← List.forall₂_eq_eq_eq, List.forall₂_map_left_iff, List.forall₂_map_right_iff]
    refine List.Forall₂.flip (((List.forall₂_and_left _ _).mpr ⟨hyielded, hbatch⟩).imp ?_)
    rintro n b ⟨⟨b', _, hnumber, hhas⟩, hhas'⟩
    rw [hhas'.eq hone hhas]
    exact hnumber
  · intro hb
    obtain ⟨n, ⟨hge, hn⟩, hfetch⟩ := hfetched b hb
    have hmem : n ∈ List.range' fromBlock (toBlock + 1 - fromBlock) := by
      rw [List.mem_range'_1]
      omega
    obtain ⟨b', hb', hhas⟩ := Slots.exists_right hbatch hmem
    rwa [hfetch.has.eq hone hhas]
  · intro hb
    obtain ⟨n, hn, hhas⟩ := Slots.exists_left hbatch hb
    obtain ⟨b', hb', _, hhas'⟩ := hyielded n hn
    obtain rfl := Option.some.inj (hhas.eq hone hhas')
    exact hb'

end agreement

theorem numberServer_consistent : Consistent numberServer := by
  rintro call call' rv rv' _ hparams ⟨number, hasked, rfl⟩ ⟨number', hasked', rfl⟩
  have hsame := hasked.symm.trans (hparams.trans hasked')
  simp only [Option.some.injEq, List.cons.injEq, Value.string.injEq] at hsame
  rw [hsame.1]

/-- The batch for five blocks, sent by a new client. -/
def rangeCall : YumBatchFuture (Option Block) × Client :=
  Client.new.getBlocks hexNumber readBlock [7, 8, 9, 10, 11] true true

/-- Its answers come in two frames, with a poll in between. -/
def rangeEvents : List Event :=
  [.op (blocksCome [(3, 9), (1, 7)]), .poll, .op (blocksCome [(2, 8), (5, 11), (4, 10)])]

/-- The batch over these events. -/
def rangeBatch : Option (List (Event × Option (Poll (List (Option Block)))) ×
    (Client × YumBatchFuture (Option Block))) :=
  (batchMachine Client.updateCodec (Option Block)).exec (rangeCall.2, rangeCall.1) rangeEvents

/-- Whether what comes in beside the polls is a frame of blocks that were asked for. -/
def framesBeside (s : Client × YumBatchFuture (Option Block)) : Event → Bool
  | .op op => framesBlocks s.1 op
  | .poll => true

theorem honest_of_framesBeside {s : Client × YumBatchFuture (Option Block)} {e : Event}
    (h : framesBeside s e = true) : HonestBeside numberServer s e := by
  cases e with
  | op op => exact honest_of_framesBlocks h
  | poll => trivial

theorem rangeBatch_honest {tr : List (Event × Option (Poll (List (Option Block))))}
    {s : Client × YumBatchFuture (Option Block)} (h : rangeBatch = some (tr, s)) :
    (batchMachine Client.updateCodec (Option Block)).Along (HonestBeside numberServer)
      (rangeCall.2, rangeCall.1) tr :=
  Mealy.along_of_checks (fun _ _ h => honest_of_framesBeside h) h (by decide +kernel)

/-- The blocks of the range. -/
def rangeBlocks : List (Option Block) :=
  [some ⟨some 7⟩, some ⟨some 8⟩, some ⟨some 9⟩, some ⟨some 10⟩, some ⟨some 11⟩]

/-- The five blocks of the batch are those of the stream, though that was given the block 10 twice
and the block 8 last. -/
theorem range_agrees : ∃ tr₁ s s' tr ls, rangeBatch = some (tr₁, s) ∧
    (batchMachine Client.updateCodec (Option Block)).step s .poll =
      some (some (.ok (.ready rangeBlocks)), s') ∧
    lateStream = some (tr, ls) ∧ ∀ b, b ∈ itemsOf (results tr) ↔ some b ∈ rangeBlocks := by
  obtain ⟨tr, ls, hexec, hpolls, _, hlen⟩ := lateStream_run
  have hcalls : rangeBatch.map (fun r => r.2.1.oneshots.length) = some 5 := by decide +kernel
  have hready : (rangeBatch.bind fun r =>
      (batchMachine Client.updateCodec (Option Block)).step r.2 .poll).map Prod.fst =
        some (some (.ok (.ready rangeBlocks))) := by decide +kernel
  obtain ⟨⟨tr₁, s⟩, hexec₁, hlen₁⟩ := Option.map_eq_some_iff.mp hcalls
  rw [hexec₁] at hready
  obtain ⟨⟨_, s'⟩, hpoll, rfl⟩ := Option.map_eq_some_iff.mp hready
  have hrange : Client.new.getBlockRange hexNumber readBlock 7 11 true true = some rangeCall := rfl
  refine ⟨tr₁, s, s', tr, ls, hexec₁, hpoll, hexec, ?_⟩
  exact (streamed_iff_in_range (A := numberServer) (by decide) (by decide) (by decide)
    numberServer_consistent numberServer_truthful Mealy.Run.nil
    (Mealy.along_of_forall (by simp)) hrange (Mealy.run_of_exec hexec₁)
    (rangeBatch_honest hexec₁) (by rw [hlen₁]; decide) hpoll Mealy.Run.nil
    (Mealy.along_of_forall (by simp)) (Mealy.run_of_exec hexec) (lateStream_honest hexec)
    (by rw [hlen]; decide) (by rw [hpolls]; simp [lateResults])).2

end Ethereyum
