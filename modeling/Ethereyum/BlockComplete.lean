/-
# `BlockComplete` — a block stream ends, and then it has yielded its range

Two facts about every run of a block stream, whatever the server and the clock
do.

* When a poll returns `None`, every block of the range was yielded before
  (`complete_at_end`): the last thing `next` does before it gives up is to look
  for a block that `completed` does not hold, and `completed` only ever gets the
  numbers of yielded blocks.
* When all but finitely many of the polled futures are ready with the block
  that was asked for, some poll returns `None` (`ends_of_finite_faults`): from the
  last fault on, each poll shortens the range left to request, or else the list
  of missing blocks, or else the queue.
-/
import Ethereyum.BlockStream
import Mathlib.Data.Set.Finite.Lattice
import Mathlib.Data.Prod.Lex

namespace Ethereyum

/-- The environment answers with blocks that have a number. -/
def PollEnv.Numbered (env : PollEnv BlockRequest Block) : Prop :=
  ∀ f b, env.answer f = .ok (.ready (some b)) → b.number ≠ none

namespace BlockStream

variable {s s' : BlockStream} {env : PollEnv BlockRequest Block}
  {out : PollOut BlockRequest Block}
  {tr : List (PollEnv BlockRequest Block × PollOut BlockRequest Block)}

/-! ## Completeness -/

/-- What is completed was yielded. -/
def Covered (tr : List (PollEnv BlockRequest Block × PollOut BlockRequest Block))
    (s : BlockStream) : Prop :=
  ∀ n ∈ s.completed, ∃ b ∈ yields tr, ∃ m, b.number = some m ∧ m % word = n

theorem Covered.mono {e : PollEnv BlockRequest Block × PollOut BlockRequest Block}
    (h : Covered tr s) (hcompleted : s'.completed = s.completed) : Covered (tr ++ [e]) s' := by
  intro n hn
  rw [hcompleted] at hn
  obtain ⟨b, hb, hnumber⟩ := h n hn
  exact ⟨b, by rw [yields_append]; exact List.mem_append_left _ hb, hnumber⟩

theorem Covered.settle {item : Nat × Ticket BlockRequest} {fate : Fate Block}
    (h : Covered tr s) (hsettle : s.settle item fate = some s') :
    Covered (tr ++ [(env, .of item fate)]) s' := by
  cases fate with
  | yielded b =>
      obtain ⟨m, hm, rfl⟩ := Option.map_eq_some_iff.mp hsettle
      intro n hn
      rw [yields_append]
      rcases Finset.mem_insert.mp hn with rfl | hn
      · exact ⟨b, List.mem_append_right _ List.mem_cons_self, m, hm, rfl⟩
      · obtain ⟨b', hb', hnumber⟩ := h n hn
        exact ⟨b', List.mem_append_left _ hb', hnumber⟩
  | null => cases hsettle; exact h.mono rfl
  | failed e => cases hsettle; exact h.mono rfl
  | late => cases hsettle; exact h.mono rfl
  | kept => cases hsettle; exact h.mono rfl

/-- Along a run the stream stays proper, keeps its range and its capacity, and
what it completed it yielded. -/
structure Runs (s₀ : BlockStream)
    (tr : List (PollEnv BlockRequest Block × PollOut BlockRequest Block)) (s : BlockStream) :
    Prop where
  proper : s.Proper
  startBlock : s.startBlock = s₀.startBlock
  toBlock : s.toBlock = s₀.toBlock
  capacity : s.capacity = s₀.capacity
  covered : Covered tr s

theorem runs_of_run {s₀ : BlockStream} (h : s₀.Proper) (hempty : s₀.completed = ∅)
    (hrun : machine.Run s₀ tr s) : Runs s₀ tr s := by
  refine hrun.invariant (I := Runs s₀) ⟨h, rfl, rfl, rfl, ?_⟩ ?_
  · intro n hn
    rw [hempty] at hn
    exact absurd hn (Finset.notMem_empty n)
  · intro tr t t' env out _ ih hstep
    rcases poll_cases ih.proper hstep with
      ⟨_, _, rfl⟩ | ⟨blocks, from', item, rest, _, _, hsettle, rfl⟩
    · exact { ih with covered := ih.covered.mono rfl }
    · obtain ⟨hstart, _, hto, hcapacity⟩ := settle_fields hsettle
      exact {
        proper := ih.proper.poll hstep
        startBlock := hstart.trans ih.startBlock
        toBlock := hto.trans ih.toBlock
        capacity := hcapacity.trans ih.capacity
        covered := @Covered.settle (t.advance blocks from' rest) _ _ _ _ _ ih.covered hsettle }

/-- A poll that ends the stream finds nothing left to do. -/
theorem ended_of_done (h : s.Proper) {env : PollEnv BlockRequest Block}
    {out : PollOut BlockRequest Block} {s' : BlockStream} (hstep : s.poll env = some (out, s'))
    (hdone : out.result = .ok (.ready none)) : s.Ended := by
  rcases poll_cases h hstep with ⟨hended, _, _⟩ | ⟨_, _, item, _, _, _, _, rfl⟩
  · exact hended
  · exact absurd hdone (Fate.result_ne_done _)

/-- At the end the whole range is completed. -/
theorem Runs.completed_of_ended {s₀ : BlockStream} (h : Runs s₀ tr s) (hended : s.Ended) {n : Nat}
    (hn : s₀.startBlock ≤ n ∧ n ≤ s₀.toBlock) : n ∈ s.completed := by
  by_contra hnot
  have hmem : n ∈ s.missing := by
    rw [mem_missing, h.startBlock, h.toBlock]
    exact ⟨hn, hnot⟩
  rw [hended.missing] at hmem
  exact absurd hmem List.not_mem_nil

/-- A proper stream can be polled forever, if every block has a number. -/
theorem exists_numbered_path {s₀ : BlockStream} (h : s₀.Proper)
    {envs : Nat → PollEnv BlockRequest Block} (hnumbered : ∀ n, (envs n).Numbered) :
    ∃ p : machine.Path s₀, p.input = envs := by
  refine Mealy.exists_path h envs ?_
  intro n t ht
  obtain ⟨out, t', hstep⟩ := poll_total ht (hnumbered n)
  exact ⟨out, t', hstep, ht.poll hstep⟩

/-- **When the stream ends, every block of its range was yielded.**  And no poll
panics on blocks that have a number. -/
theorem complete_at_end {fromBlock toBlock batch buffer : Nat} {withTx : Bool}
    (hle : fromBlock ≤ toBlock) (hto : toBlock + 1 < word) (hpos : 1 ≤ batch * buffer)
    (hlt : batch * buffer < word)
    (hrun : machine.Run (withOptions fromBlock toBlock withTx batch buffer) tr s) :
    (∀ env : PollEnv BlockRequest Block, env.Numbered →
      ∃ out s', machine.step s env = some (out, s')) ∧
    ∀ env out s', machine.step s env = some (out, s') → out.result = .ok (.ready none) →
      ∀ n, fromBlock ≤ n → n ≤ toBlock →
        ∃ b ∈ yields tr, ∃ m, b.number = some m ∧ m % word = n := by
  have hruns := runs_of_run (Proper.withOptions hle hto hpos hlt) rfl hrun
  refine ⟨fun env hnumbered => poll_total hruns.proper hnumbered, ?_⟩
  intro env out s' hstep hdone n hge hn
  have hended := ended_of_done hruns.proper hstep hdone
  exact hruns.covered n (hruns.completed_of_ended hended ⟨hge, hn⟩)

/-- The server that answers every request with its block. -/
def promptServer : PollEnv BlockRequest Block where
  answer f := .ok (.ready (some ⟨some f.key.number⟩))
  stamp _ := 0
  now := 0

/-- A server that has no block 8 yet, and is slow with the block 9. -/
def slowServer : PollEnv BlockRequest Block where
  answer f :=
    match f.key.number with
    | 8 => .ok (.ready none)
    | 9 => .ok .notReady
    | n => .ok (.ready (some ⟨some n⟩))
  stamp _ := 0
  now := 0

/-- Five blocks in windows of four and two: the block 8 is lost, and yielded all the same. -/
theorem five_blocks_complete : ∃ tr s,
    machine.exec (withOptions 7 11 false 2 2)
      (List.replicate 4 slowServer ++ List.replicate 4 promptServer) = some (tr, s) ∧
    ∃ b ∈ yields tr, ∃ m, b.number = some m ∧ m % word = 8 := by
  refine ⟨_, _, rfl, ?_⟩
  have hrun : machine.Run (withOptions 7 11 false 2 2) _ _ :=
    Mealy.run_of_exec (show machine.exec (withOptions 7 11 false 2 2)
      (List.replicate 4 slowServer ++ List.replicate 4 promptServer) = some (_, _) from rfl)
  exact (complete_at_end (by decide) (by decide) (by decide) (by decide) hrun).2 promptServer _ _
    rfl rfl 8 (by decide) (by decide)

/-! ## Termination -/

/-- The range left to request, then the blocks missing, then the queue. -/
def measure (s : BlockStream) : Nat × Nat × Nat :=
  (s.toBlock - s.fromBlock, s.missing.length, s.queue.length)

/-- The order on measures. -/
def Falls : Nat × Nat × Nat → Nat × Nat × Nat → Prop :=
  Prod.Lex (· < ·) (Prod.Lex (· < ·) (· < ·))

theorem wellFounded_falls : WellFounded Falls :=
  WellFounded.prod_lex wellFounded_lt (WellFounded.prod_lex wellFounded_lt wellFounded_lt)

theorem falls_of_lt {a a' b b' : Nat} {c c' : Nat} (h : a' < a) : Falls (a', b', c') (a, b, c) :=
  Prod.Lex.left _ _ h

theorem falls_of_le_of_lt {a b b' c c' : Nat} (hb : b' ≤ b) (hc : b' < b ∨ c' < c) :
    Falls (a, b', c') (a, b, c) := by
  refine Prod.Lex.right _ ?_
  rcases Nat.lt_or_eq_of_le hb with hlt | rfl
  · exact Prod.Lex.left _ _ hlt
  · exact Prod.Lex.right _ (hc.resolve_left (Nat.lt_irrefl _))

/-- The polled future, if one was polled, was ready with the block it asked for. -/
def Served (out : PollOut BlockRequest Block) : Prop :=
  ∀ f fate, out.polled = some (f, fate) → fate = .yielded ⟨some f.key.number⟩

/-- Completing a block takes it off the missing ones, and no other comes back. -/
theorem missing_insert (h : s'.startBlock = s.startBlock) (h' : s'.toBlock = s.toBlock) {n : Nat}
    (hcompleted : s'.completed = insert n s.completed) :
    s'.missing = s.missing.filter fun k => k ≠ n := by
  unfold missing
  rw [h, h', hcompleted, List.filter_filter]
  refine List.filter_congr ?_
  intro k _
  simp [Finset.mem_insert, not_or]

theorem length_missing_insert_lt (h : s'.startBlock = s.startBlock)
    (h' : s'.toBlock = s.toBlock) {n : Nat} (hcompleted : s'.completed = insert n s.completed)
    (hn : n ∈ s.missing) : s'.missing.length < s.missing.length := by
  rw [missing_insert h h' hcompleted]
  exact List.length_filter_lt_length_iff_exists.mpr ⟨n, hn, by simp⟩

/-- The next fetch, if one is due, requests a block past `from`. -/
def Moves (s : BlockStream) : Prop :=
  s.fromBlock < s.toBlock → s.queue.length ≤ s.capacity / 2 → s.queue.length + 2 ≤ s.capacity

/-- A served poll of a proper stream ends it or lowers the measure, unless it is a
fetch that does not move. -/
theorem falls_of_served (h : s.Proper) (hmoves : s.Moves)
    (hstep : s.poll env = some (out, s')) (hserved : Served out) :
    out.result = .ok (.ready none) ∨ Falls s'.measure s.measure := by
  rcases poll_cases h hstep with
    ⟨_, rfl, _⟩ | ⟨blocks, from', item, rest, hadvance, hqueue, hsettle, rfl⟩
  · exact Or.inl rfl
  · refine Or.inr ?_
    have hfate := hserved _ _ rfl
    rw [hfate] at hsettle
    obtain rfl := Option.some.inj hsettle
    have hnumbers := congrArg numbers hqueue
    rw [numbers_push] at hnumbers
    have hle : ∀ t : BlockStream, t.startBlock = s.startBlock → t.toBlock = s.toBlock →
        t.completed = insert (item.2.key.number % word) s.completed →
        t.missing.length ≤ s.missing.length := by
      intro t hstart hto hcompleted
      rw [missing_insert hstart hto hcompleted]
      exact List.length_filter_le _ _
    have hdrained : blocks = [] → rest.length < s.queue.length := by
      rintro rfl
      have hlen := congrArg List.length hnumbers
      simp only [numbers, List.append_nil, List.length_map, List.length_cons] at hlen
      omega
    cases hadvance with
    | recover reached empty left =>
        have hfront : item.2.key.number ∈ s.missing := by
          rw [empty] at hnumbers
          rw [show s.missing = item.2.key.number :: numbers rest from hnumbers]
          exact List.mem_cons_self
        have hword : item.2.key.number % word = item.2.key.number := by
          have hbounds := (mem_missing.mp hfront).1
          exact Nat.mod_eq_of_lt (by have := h.to_lt; omega)
        refine falls_of_le_of_lt (hle _ rfl rfl rfl) (Or.inl ?_)
        exact @length_missing_insert_lt s _ rfl rfl _ rfl (hword.symm ▸ hfront)
    | drain => exact falls_of_le_of_lt (hle _ rfl rfl rfl) (Or.inr (hdrained rfl))
    | busy => exact falls_of_le_of_lt (hle _ rfl rfl rfl) (Or.inr (hdrained rfl))
    | fetch many short room many_eq =>
        have hspare := hmoves short room
        refine falls_of_lt ?_
        show s.toBlock - (s.fromBlock + many) < s.toBlock - s.fromBlock
        omega

/-- **With finitely many faults the stream ends**, whatever the faults are and
wherever they fall; and it can be polled forever, if every block has a number. -/
theorem ends_of_finite_faults {fromBlock toBlock : Nat} {withTx : Bool}
    (hle : fromBlock ≤ toBlock) (hto : toBlock + 1 < word) :
    (∀ envs : Nat → PollEnv BlockRequest Block, (∀ n, (envs n).Numbered) →
      ∃ p : machine.Path (new fromBlock toBlock withTx), p.input = envs) ∧
    ∀ p : machine.Path (new fromBlock toBlock withTx), {n | ¬ Served (p.output n)}.Finite →
      ∃ n, (p.output n).result = .ok (.ready none) := by
  have hstart := @Proper.new _ _ withTx hle hto
  constructor
  · intro envs hnumbered
    exact exists_numbered_path hstart hnumbered
  · intro p hfaults
    have hruns : ∀ n, Runs (new fromBlock toBlock withTx) (p.trace n) (p.state n) :=
      fun n => runs_of_run hstart rfl (p.run n)
    obtain ⟨last, hlast⟩ := hfaults.bddAbove
    obtain ⟨n, _, hdone⟩ := p.eventually wellFounded_falls measure
      (fun n => (p.output n).result = .ok (.ready none)) (last + 1) fun n hn => by
        have hserved : Served (p.output n) := by
          by_contra hfault
          exact absurd (hlast hfault) (Nat.not_le.mpr hn)
        have hcapacity : (p.state n).capacity = 50 := (hruns n).capacity
        refine falls_of_served (hruns n).proper ?_ (p.step n) hserved
        intro _ hroom
        omega
    exact ⟨n, hdone⟩

/-- The slow server four times, and a prompt one from then on. -/
def slowThenPrompt (n : Nat) : PollEnv BlockRequest Block :=
  if n < 4 then slowServer else promptServer

theorem slowThenPrompt_numbered (n : Nat) : (slowThenPrompt n).Numbered := by
  intro f b hanswer
  unfold slowThenPrompt at hanswer
  split at hanswer
  · simp only [slowServer] at hanswer
    split at hanswer <;> cases hanswer
    exact Option.some_ne_none _
  · cases hanswer
    exact Option.some_ne_none _

/-- What was null or late in the first polls does not keep the stream from its end. -/
theorem five_blocks_end : ∃ p : machine.Path (new 7 11 false), p.input = slowThenPrompt ∧
    ∃ n, (p.output n).result = .ok (.ready none) := by
  have h := @ends_of_finite_faults 7 11 false (by decide) (by decide)
  obtain ⟨p, hp⟩ := h.1 slowThenPrompt slowThenPrompt_numbered
  refine ⟨p, hp, h.2 p ((Set.finite_lt_nat 4).subset ?_)⟩
  intro n hfault
  by_contra hearly
  have hprompt : slowThenPrompt n = promptServer := if_neg hearly
  refine hfault ?_
  have hproper := (runs_of_run (Proper.new (by decide) (by decide)) rfl (p.run n)).proper
  rcases poll_cases hproper (p.step n) with ⟨_, hout, _⟩ | ⟨_, _, item, _, _, _, _, hout⟩
  · intro f fate hpolled
    rw [hout] at hpolled
    cases hpolled
  · intro f fate hpolled
    rw [hout, hp, hprompt] at hpolled
    cases hpolled
    rfl

end BlockStream

end Ethereyum
