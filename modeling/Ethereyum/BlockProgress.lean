/-
# `BlockProgress` — which block streams get through their range, and what they ask for

Every future is ready with its block here (`PollEnv.Prompt`), so that what a
stream does is its own doing.

`next` fetches as many blocks as the queue has room for, and its window includes
both ends.  The block at `from` is one of them, and `remaining_capacity` takes one
more off: with a queue of one or two places the window comes down to that block
alone, `from` stays where it is, and the stream yields that block forever
(`Stuck`).  `ends_iff_room` says for which options that happens.

`agrees_iff_ordered` compares the stream of a range with `get_block_range`: they
request the same blocks unless `from` is past `to`, where the subtraction in `next`
underflows.
-/
import Ethereyum.BlockComplete

namespace Ethereyum

/-- Every answer is the block that was asked for. -/
def PollEnv.Prompt (env : PollEnv BlockRequest Block) : Prop :=
  ∀ f, env.answer f = .ok (.ready (some ⟨some f.key.number⟩))

theorem PollEnv.Prompt.numbered {env : PollEnv BlockRequest Block} (h : env.Prompt) :
    env.Numbered := by
  intro f b hanswer
  rw [h f] at hanswer
  cases hanswer
  exact Option.some_ne_none _

theorem PollEnv.Prompt.fate_eq {env : PollEnv BlockRequest Block} (h : env.Prompt)
    (item : Nat × Ticket BlockRequest) : env.fate item = .yielded ⟨some item.2.key.number⟩ := by
  simp only [fate, h item.2]

namespace BlockStream

theorem promptServer_prompt : promptServer.Prompt := fun _ => rfl

section prompt
variable {s s' s₀ : BlockStream} {env : PollEnv BlockRequest Block}
  {out : PollOut BlockRequest Block}

/-- A prompt poll ends the stream, or takes the front of the queue and completes it. -/
theorem prompt_cases (h : s.Proper) (hprompt : env.Prompt) (hstep : s.poll env = some (out, s')) :
    (s.Ended ∧ out = .done ∧ s' = s) ∨
    ∃ blocks from' item rest, Advance s blocks from' ∧
      env.push s.queue (s.futures blocks) = item :: rest ∧
      s' = { s.advance blocks from' rest with
        completed := insert (item.2.key.number % word) s.completed } ∧
      out = .of item (.yielded ⟨some item.2.key.number⟩) := by
  rcases poll_cases h hstep with
    hended | ⟨blocks, from', item, rest, hadvance, hqueue, hsettle, hout⟩
  · exact Or.inl hended
  · rw [hprompt.fate_eq item] at hsettle hout
    exact Or.inr ⟨blocks, from', item, rest, hadvance, hqueue,
      (Option.some.inj hsettle).symm, hout⟩

theorem served_of_prompt (h : s.Proper) (hprompt : env.Prompt)
    (hstep : s.poll env = some (out, s')) : Served out := by
  intro f fate hpolled
  rcases prompt_cases h hprompt hstep with ⟨_, rfl, _⟩ | ⟨_, _, _, _, _, _, _, rfl⟩
  · cases hpolled
  · cases hpolled
    rfl

/-- A prompt server never makes a poll of a proper stream panic. -/
theorem exists_prompt_path (h : s₀.Proper) {envs : Nat → PollEnv BlockRequest Block}
    (hprompt : ∀ n, (envs n).Prompt) : ∃ p : machine.Path s₀, p.input = envs :=
  exists_numbered_path h fun n => (hprompt n).numbered

/-! ## The options that get through -/

/-- What keeps every fetch moving: a queue of three places, a range that was
requested to its end, or one that the first window requests to its end. -/
def Room (s : BlockStream) : Prop :=
  3 ≤ s.capacity ∨ s.fromBlock = s.toBlock ∨
    (s.queue = [] ∧ s.toBlock - s.fromBlock < s.capacity)

theorem Room.moves (h : Room s) : s.Moves := by
  intro hshort hroom
  rcases h with hcapacity | hreached | ⟨hempty, hwindow⟩
  · omega
  · exact absurd hreached (Nat.ne_of_lt hshort)
  · rw [hempty, List.length_nil]
    omega

theorem Room.poll (h : Room s) (hproper : s.Proper) (hstep : s.poll env = some (out, s')) :
    Room s' := by
  rcases poll_cases hproper hstep with
    ⟨_, _, rfl⟩ | ⟨blocks, from', item, rest, hadvance, _, hsettle, _⟩
  · exact h
  · obtain ⟨_, hfrom, hto, hcapacity⟩ := settle_fields hsettle
    rcases h with hthree | hreached | ⟨hempty, hwindow⟩
    · exact Or.inl (by rw [hcapacity]; exact hthree)
    · refine Or.inr (Or.inl ?_)
      have hbounds := hadvance.bounds hproper
      rw [hfrom, hto]
      exact Nat.le_antisymm hbounds.2 (hreached ▸ hbounds.1)
    · refine Or.inr (Or.inl ?_)
      rw [hfrom, hto]
      cases hadvance with
      | recover reached => exact reached
      | drain reached => exact reached
      | busy short full => simp [hempty] at full
      | fetch many short room many_eq =>
          rw [hempty, List.length_nil] at many_eq
          show s.fromBlock + many = s.toBlock
          omega

/-- With room, a prompt server sees the stream to its end. -/
theorem ends_of_room (h : s₀.Proper) (hroom : Room s₀) (p : machine.Path s₀)
    (hprompt : ∀ n, (p.input n).Prompt) : ∃ n, (p.output n).result = .ok (.ready none) := by
  have hkeeps := p.invariant (I := fun s => s.Proper ∧ Room s) ⟨h, hroom⟩ fun n ih =>
    ⟨ih.1.poll (p.step n), ih.2.poll ih.1 (p.step n)⟩
  obtain ⟨n, _, hdone⟩ := p.eventually wellFounded_falls measure
    (fun n => (p.output n).result = .ok (.ready none)) 0 fun n _ =>
      falls_of_served (hkeeps n).1 (hkeeps n).2.moves (p.step n)
        (served_of_prompt (hkeeps n).1 (hprompt n) (p.step n))
  exact ⟨n, hdone⟩

/-! ## The options that do not -/

/-- The window that the queue has room for, with the queue filled up, stays short
of `to`. -/
structure Stuck (s : BlockStream) : Prop where
  small : s.capacity ≤ 2
  spare : s.queue.length < s.capacity
  short : s.fromBlock + (s.capacity - s.queue.length - 1) < s.toBlock

/-- A prompt poll of a stuck stream yields a block and leaves it stuck: the fetch
fills the queue, and the next one can only request its own first block. -/
theorem Stuck.poll (h : Stuck s) (hproper : s.Proper) (hprompt : env.Prompt)
    (hstep : s.poll env = some (out, s')) : Stuck s' ∧ out.result ≠ .ok (.ready none) := by
  have hsmall := h.small
  have hspare := h.spare
  have hshort := h.short
  rcases prompt_cases hproper hprompt hstep with
    ⟨hended, _, _⟩ | ⟨blocks, from', item, rest, hadvance, hqueue, hs', rfl⟩
  · have hreached := hended.reached
    omega
  · refine ⟨?_, Fate.result_ne_done (.yielded _)⟩
    cases hadvance with
    | recover reached => omega
    | drain reached => omega
    | busy _ full => omega
    | fetch many _ _ many_eq =>
        obtain rfl : many = s.capacity - s.queue.length - 1 := by omega
        have hlen := congrArg List.length hqueue
        simp only [PollEnv.push, List.length_append, List.length_map, length_futures,
          List.length_range', List.length_cons] at hlen
        have hrest : rest.length + 1 = s.capacity := by omega
        rw [hs']
        exact {
          small := hsmall
          spare := by
            show rest.length < s.capacity
            omega
          short := by
            show s.fromBlock + (s.capacity - s.queue.length - 1) +
              (s.capacity - rest.length - 1) < s.toBlock
            omega }

theorem never_ends_of_stuck (h : s₀.Proper) (hstuck : Stuck s₀) (p : machine.Path s₀)
    (hprompt : ∀ n, (p.input n).Prompt) (n : Nat) :
    (p.output n).result ≠ .ok (.ready none) := by
  have hkeeps := p.invariant (I := fun s => s.Proper ∧ Stuck s) ⟨h, hstuck⟩ fun n ih =>
    ⟨ih.1.poll (p.step n), (ih.2.poll ih.1 (hprompt n) (p.step n)).1⟩
  exact ((hkeeps n).2.poll (hkeeps n).1 (hprompt n) (p.step n)).2

/-- **A prompt server sees a stream to its end exactly when its queue has three
places, or the first window requests the whole range.**  No poll panics. -/
theorem ends_iff_room {fromBlock toBlock batch buffer : Nat} {withTx : Bool}
    (hbatch : 1 ≤ batch) (hbuffer : 1 ≤ buffer) (hlt : batch * buffer < word)
    (hle : fromBlock ≤ toBlock) (hto : toBlock + 1 < word) :
    (∀ envs : Nat → PollEnv BlockRequest Block, (∀ n, (envs n).Prompt) →
      ∃ p : machine.Path (withOptions fromBlock toBlock withTx batch buffer), p.input = envs) ∧
    ∀ p : machine.Path (withOptions fromBlock toBlock withTx batch buffer),
      (∀ n, (p.input n).Prompt) →
      ((∃ n, (p.output n).result = .ok (.ready none)) ↔
        3 ≤ batch * buffer ∨ toBlock - fromBlock < batch * buffer) := by
  have hpos : 1 ≤ batch * buffer := Nat.mul_pos hbatch hbuffer
  have hproper : (withOptions fromBlock toBlock withTx batch buffer).Proper :=
    Proper.withOptions hle hto hpos hlt
  have hcapacity : (withOptions fromBlock toBlock withTx batch buffer).capacity =
      batch * buffer := Nat.mul_comm _ _
  refine ⟨fun envs hprompt => exists_prompt_path hproper hprompt, ?_⟩
  intro p hprompt
  constructor
  · rintro ⟨n, hdone⟩
    by_contra hnot
    rw [not_or, Nat.not_le, Nat.not_lt] at hnot
    refine never_ends_of_stuck hproper ?_ p hprompt n hdone
    exact {
      small := by omega
      spare := by rw [hcapacity]; exact hpos
      short := by
        rw [hcapacity]
        show fromBlock + (batch * buffer - 0 - 1) < toBlock
        omega }
  · intro hroom
    refine ends_of_room hproper ?_ p hprompt
    rcases hroom with hthree | hwindow
    · exact Or.inl (hcapacity ▸ hthree)
    · exact Or.inr (Or.inr ⟨rfl, hcapacity ▸ hwindow⟩)

/-- With 50 places the eleven blocks from 0 on are got through. -/
theorem eleven_blocks_end : ∃ p : machine.Path (withOptions 0 10 false 10 5),
    (∀ n, (p.input n).Prompt) ∧ ∃ n, (p.output n).result = .ok (.ready none) := by
  have h := @ends_iff_room 0 10 10 5 false (by decide) (by decide) (by decide) (by decide)
    (by decide)
  obtain ⟨p, hp⟩ := h.1 (fun _ => promptServer) fun _ => promptServer_prompt
  have hprompt : ∀ n, (p.input n).Prompt := fun n => hp ▸ promptServer_prompt
  exact ⟨p, hprompt, (h.2 p hprompt).mpr (Or.inl (by decide))⟩

/-- With one place the two blocks from 0 on are not. -/
theorem two_blocks_never_end : ∃ p : machine.Path (withOptions 0 1 false 1 1),
    (∀ n, (p.input n).Prompt) ∧ ∀ n, (p.output n).result ≠ .ok (.ready none) := by
  have hproper : (withOptions 0 1 false 1 1).Proper :=
    Proper.withOptions (by decide) (by decide) (by decide) (by decide)
  have hstuck : Stuck (withOptions 0 1 false 1 1) :=
    { small := by decide, spare := by decide, short := by decide }
  obtain ⟨p, hp⟩ := exists_prompt_path hproper fun _ => promptServer_prompt
  have hprompt : ∀ n, (p.input n).Prompt := fun n => hp ▸ promptServer_prompt
  exact ⟨p, hprompt, never_ends_of_stuck hproper hstuck p hprompt⟩

/-! ## The stream and the batch -/

/-- The requests of `YumClient::get_block_range`. -/
def rangeRequests (fromBlock toBlock : Nat) (withTx : Bool) : Option (List BlockRequest) :=
  (blockRange fromBlock toBlock).map fun blocks => blocks.map fun n => ⟨n, withTx⟩

/-- The blocks that were requested. -/
def requested (asked : List BlockRequest) : Set Nat := {n | ∃ r ∈ asked, r.number = n}

/-- Against every prompt server the stream of a range ends, without a panic, and
requests the blocks that `get_block_range` does. -/
def Agrees (fromBlock toBlock : Nat) (withTx : Bool) : Prop :=
  ∀ envs : Nat → PollEnv BlockRequest Block, (∀ n, (envs n).Prompt) →
    ∃ p : machine.Path (new fromBlock toBlock withTx), p.input = envs ∧
      ∃ n calls, (p.output n).result = .ok (.ready none) ∧
        rangeRequests fromBlock toBlock withTx = some calls ∧
        requested (p.state n).asked = requested calls

/-- A stream asks for blocks of its range, and waits for and completes what it
asked for. -/
structure Asks (s : BlockStream) : Prop where
  within : ∀ r ∈ s.asked, s.startBlock ≤ r.number ∧ r.number ≤ s.toBlock
  queued : ∀ item ∈ s.queue, item.2.key ∈ s.asked
  completed : ∀ n ∈ s.completed, ∃ r ∈ s.asked, r.number = n

theorem Asks.new (fromBlock toBlock : Nat) (withTx : Bool) :
    Asks (new fromBlock toBlock withTx) where
  within _ hr := absurd hr List.not_mem_nil
  queued _ hitem := absurd hitem List.not_mem_nil
  completed _ hn := absurd hn (Finset.notMem_empty _)

theorem Advance.within {blocks : List Nat} {from' : Nat} (h : Advance s blocks from')
    (hproper : s.Proper) : ∀ n ∈ blocks, s.startBlock ≤ n ∧ n ≤ s.toBlock := by
  have hstart := hproper.start_le
  intro n hn
  cases h with
  | recover => exact (mem_missing.mp hn).1
  | drain => exact absurd hn List.not_mem_nil
  | busy => exact absurd hn List.not_mem_nil
  | fetch many short room many_eq =>
      have hbounds := List.mem_range'_1.mp hn
      omega

theorem Asks.poll (h : Asks s) (hproper : s.Proper) (hprompt : env.Prompt)
    (hstep : s.poll env = some (out, s')) : Asks s' := by
  rcases prompt_cases hproper hprompt hstep with
    ⟨_, _, rfl⟩ | ⟨blocks, from', item, rest, hadvance, hqueue, rfl, _⟩
  · exact h
  · have hasked : (s.advance blocks from' rest).asked =
        s.asked ++ blocks.map fun n => ⟨n, s.withTx⟩ := rfl
    have hkey : ∀ item' ∈ item :: rest,
        item'.2.key ∈ (s.advance blocks from' rest).asked := by
      intro item' hitem'
      rw [← hqueue, PollEnv.push, List.mem_append] at hitem'
      rw [hasked, List.mem_append]
      rcases hitem' with hold | hnew
      · exact Or.inl (h.queued item' hold)
      · obtain ⟨f, hf, rfl⟩ := List.mem_map.mp hnew
        exact Or.inr (key_mem_of_mem_ticketsFrom hf)
    have hwithin : ∀ r ∈ (s.advance blocks from' rest).asked,
        s.startBlock ≤ r.number ∧ r.number ≤ s.toBlock := by
      intro r hr
      rw [hasked] at hr
      rcases List.mem_append.mp hr with hold | hnew
      · exact h.within r hold
      · obtain ⟨n, hn, rfl⟩ := List.mem_map.mp hnew
        exact hadvance.within hproper n hn
    refine { within := hwithin, queued := ?_, completed := ?_ }
    · intro item' hitem'
      exact hkey item' (List.mem_cons_of_mem _ hitem')
    · intro n hn
      rcases Finset.mem_insert.mp hn with rfl | hold
      · have hfront := hkey item List.mem_cons_self
        have hlast := (hwithin _ hfront).2
        have hto := hproper.to_lt
        exact ⟨item.2.key, hfront, (Nat.mod_eq_of_lt (by omega)).symm⟩
      · obtain ⟨r, hr, hnumber⟩ := h.completed n hold
        exact ⟨r, List.mem_append_left _ hr, hnumber⟩

theorem mem_requested_range {fromBlock toBlock n : Nat} {withTx : Bool} {calls : List BlockRequest}
    (hto : toBlock + 1 < word) (h : rangeRequests fromBlock toBlock withTx = some calls) :
    n ∈ requested calls ↔ fromBlock ≤ n ∧ n ≤ toBlock := by
  rw [rangeRequests, blockRange_eq hto] at h
  obtain rfl := Option.some.inj h
  constructor
  · rintro ⟨r, hr, rfl⟩
    obtain ⟨n, hn, rfl⟩ := List.mem_map.mp hr
    have hbounds := List.mem_range'_1.mp hn
    show fromBlock ≤ n ∧ n ≤ toBlock
    omega
  · intro hn
    refine ⟨⟨n, withTx⟩, List.mem_map.mpr ⟨n, ?_, rfl⟩, rfl⟩
    rw [List.mem_range'_1]
    omega

/-- An ordered range is streamed as it is batched. -/
theorem agrees_of_le {fromBlock toBlock : Nat} {withTx : Bool} (hle : fromBlock ≤ toBlock)
    (hto : toBlock + 1 < word) : Agrees fromBlock toBlock withTx := by
  intro envs hprompt
  have hproper : (new fromBlock toBlock withTx).Proper := Proper.new hle hto
  obtain ⟨p, rfl⟩ := exists_prompt_path hproper hprompt
  obtain ⟨n, hdone⟩ := ends_of_room hproper (Or.inl (by decide : 3 ≤ 5 * 10)) p hprompt
  have hruns := fun n => runs_of_run hproper rfl (p.run n)
  have hasks := p.invariant (I := Asks) (Asks.new fromBlock toBlock withTx) fun n ih =>
    ih.poll (hruns n).proper (hprompt n) (p.step n)
  have hcalls : rangeRequests fromBlock toBlock withTx =
      some ((List.range' fromBlock (toBlock + 1 - fromBlock)).map fun n => ⟨n, withTx⟩) := by
    rw [rangeRequests, blockRange_eq hto, Option.map_some]
  refine ⟨p, rfl, n, _, hdone, hcalls, ?_⟩
  have hended := ended_of_done (hruns n).proper (p.step n) hdone
  ext m
  rw [mem_requested_range hto hcalls]
  constructor
  · rintro ⟨r, hr, rfl⟩
    have hwithin := (hasks n).within r hr
    rw [(hruns n).startBlock, (hruns n).toBlock] at hwithin
    exact hwithin
  · intro hm
    -- nothing of the range is missing at the end
    exact (hasks n).completed m ((hruns n).completed_of_ended hended hm)

/-- With `from` past `to` the first poll subtracts the one from the other. -/
theorem poll_of_reversed {fromBlock toBlock : Nat} {withTx : Bool} (hlt : toBlock < fromBlock)
    (env : PollEnv BlockRequest Block) : (new fromBlock toBlock withTx).poll env = none := by
  have hne : fromBlock ≠ toBlock := Nat.ne_of_gt hlt
  have hhalf : (new fromBlock toBlock withTx).halfCapacity = some 25 := by
    simp [halfCapacity, queueCapacity, new, checkedMul, word]
  have hleft : checkedSub toBlock fromBlock = none := if_neg (Nat.not_le.mpr hlt)
  have hnext : (new fromBlock toBlock withTx).next env = none := by
    have hfields : (new fromBlock toBlock withTx).fromBlock = fromBlock ∧
        (new fromBlock toBlock withTx).toBlock = toBlock ∧
        (new fromBlock toBlock withTx).queue = [] := ⟨rfl, rfl, rfl⟩
    simp [next, hfields, hne, hhalf, hleft]
  simp [poll, hnext]

theorem not_agrees_of_reversed {fromBlock toBlock : Nat} {withTx : Bool}
    (hlt : toBlock < fromBlock) : ¬ Agrees fromBlock toBlock withTx := by
  intro hagrees
  obtain ⟨p, _, _⟩ := hagrees (fun _ => promptServer) fun _ => promptServer_prompt
  have hstep : (p.state 0).poll (p.input 0) = some (p.output 0, p.state 1) := p.step 0
  rw [p.start, poll_of_reversed hlt] at hstep
  cases hstep

/-- **The stream and the batch of a range agree exactly when `from` is not past
`to`.** -/
theorem agrees_iff_ordered {fromBlock toBlock : Nat} {withTx : Bool} (hto : toBlock + 1 < word) :
    Agrees fromBlock toBlock withTx ↔ fromBlock ≤ toBlock := by
  constructor
  · intro hagrees
    by_contra hnot
    exact not_agrees_of_reversed (Nat.not_le.mp hnot) hagrees
  · intro hle
    exact agrees_of_le hle hto

/-- The 61 blocks from 100 on are streamed as they are batched. -/
theorem ordered_range_agrees : Agrees 100 160 true :=
  (agrees_iff_ordered (by decide)).mpr (by decide)

/-- The empty range from 8 to 7 is not: the first poll of its stream panics. -/
theorem reversed_range_differs :
    ¬ Agrees 8 7 true ∧ (new 8 7 true).poll promptServer = none ∧
      rangeRequests 8 7 true = some [] :=
  ⟨not_agrees_of_reversed (by decide), poll_of_reversed (by decide) _, by decide⟩

end prompt

end BlockStream

end Ethereyum
