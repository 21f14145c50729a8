/-
# `BlockUnique` — which ranges a block stream yields without repetition

`get_block_range` includes its last block, and `next` asks it for
`from ..= from + n` before it moves `from` on by `n`: the last block of one
window is the first of the next.  A range that fits the first window, 50 blocks
for `BlockStream::new`, is requested once and never twice at the same time
(`Unique`); any longer one yields the block where the first two windows meet
twice as soon as the server is prompt (`exists_duplicate`).
-/
import Ethereyum.BlockComplete

namespace Ethereyum

/-- Every answer is the block that was asked for, sooner or later. -/
def PollEnv.Honest (env : PollEnv BlockRequest Block) : Prop :=
  ∀ f, env.answer f = .ok .notReady ∨
    env.answer f = .ok (.ready (some ⟨some f.key.number⟩))

theorem PollEnv.Honest.eq_of_yielded {env : PollEnv BlockRequest Block}
    {item : Nat × Ticket BlockRequest} {b : Block} (h : env.Honest)
    (hfate : env.fate item = .yielded b) : b = ⟨some item.2.key.number⟩ := by
  have hanswer := answer_of_yielded hfate
  rcases h item.2 with hpending | hready
  · rw [hpending] at hanswer
    cases hanswer
  · rw [hready] at hanswer
    cases hanswer
    rfl

namespace BlockStream

variable {s s' : BlockStream} {env : PollEnv BlockRequest Block}
  {out : PollOut BlockRequest Block}
  {tr : List (PollEnv BlockRequest Block × PollOut BlockRequest Block)}

/-- No run of the stream against an honest server yields a block number twice. -/
def NeverRepeats (s : BlockStream) : Prop :=
  ∀ tr s', machine.Run s tr s' → (∀ e ∈ tr, e.1.Honest) → ((yields tr).map (·.number)).Nodup

/-! ## Short ranges -/

/-- Blocks that are asked for once, and were not completed. -/
structure Pending (ns : List Nat) (completed : Finset Nat) : Prop where
  nodup : ns.Nodup
  fresh : ∀ n ∈ ns, n ∉ completed
  small : ∀ n ∈ ns, n < word

/-- No block is asked for twice at one time, none is asked for again once it was
yielded, and the range was requested at once. -/
structure Unique (tr : List (PollEnv BlockRequest Block × PollOut BlockRequest Block))
    (s : BlockStream) : Prop where
  pending : Pending (numbers s.queue) s.completed
  yielded : ∀ b ∈ yields tr, ∃ n ∈ s.completed, b.number = some n
  nodup : ((yields tr).map (·.number)).Nodup
  window : s.fromBlock = s.toBlock ∨
    (s.fromBlock = s.startBlock ∧ s.queue = [] ∧ s.completed = ∅)

/-- What is pending stays so when `next` requests more. -/
theorem Unique.advance {blocks : List Nat} {from' : Nat} (h : Unique tr s) (hproper : s.Proper)
    (hshort : s.toBlock - s.startBlock < s.capacity) (hadvance : Advance s blocks from') :
    Pending (numbers s.queue ++ blocks) s.completed ∧ from' = s.toBlock := by
  have hto := hproper.to_lt
  cases hadvance with
  | recover reached empty left =>
      refine ⟨?_, reached⟩
      rw [empty]
      exact {
        nodup := List.Nodup.filter _ List.nodup_range'
        fresh := fun n hn => (mem_missing.mp hn).2
        small := fun n hn => by
          have hbounds := (mem_missing.mp hn).1
          omega }
  | drain reached left =>
      refine ⟨?_, reached⟩
      rw [List.append_nil]
      exact h.pending
  | busy short full =>
      rcases h.window with hreached | ⟨_, hqueue, _⟩
      · exact absurd hreached (Nat.ne_of_lt short)
      · simp [hqueue] at full
  | fetch many short room many_eq =>
      rcases h.window with hreached | ⟨hstart, hqueue, hcompleted⟩
      · exact absurd hreached (Nat.ne_of_lt short)
      · have hmany : s.fromBlock + many = s.toBlock := by
          rw [hqueue, List.length_nil] at many_eq
          omega
        refine ⟨?_, hmany⟩
        rw [hqueue, hcompleted]
        exact {
          nodup := List.nodup_range'
          fresh := fun n _ => Finset.notMem_empty n
          small := fun n hn => by
            have hbounds := List.mem_range'_1.mp hn
            omega }

theorem Pending.tail {n : Nat} {ns : List Nat} {completed : Finset Nat}
    (h : Pending (n :: ns) completed) : Pending ns completed where
  nodup := (List.nodup_cons.mp h.nodup).2
  fresh k hk := h.fresh k (List.mem_cons_of_mem _ hk)
  small k hk := h.small k (List.mem_cons_of_mem _ hk)

/-- The front one is completed. -/
theorem Pending.complete {n : Nat} {ns : List Nat} {completed : Finset Nat}
    (h : Pending (n :: ns) completed) : Pending ns (insert n completed) where
  nodup := h.tail.nodup
  fresh k hk hmem := by
    rcases Finset.mem_insert.mp hmem with rfl | hmem
    · exact (List.nodup_cons.mp h.nodup).1 hk
    · exact h.tail.fresh k hk hmem
  small := h.tail.small

theorem Pending.perm {ns ns' : List Nat} {completed : Finset Nat} (h : Pending ns completed)
    (hperm : ns'.Perm ns) : Pending ns' completed where
  nodup := hperm.nodup_iff.mpr h.nodup
  fresh n hn := h.fresh n (hperm.mem_iff.mp hn)
  small n hn := h.small n (hperm.mem_iff.mp hn)

/-- A poll that yields nothing and completes nothing. -/
theorem Unique.idle (h : Unique tr s) (hnone : yields [(env, out)] = [])
    (hcompleted : s'.completed = s.completed) (hpending : Pending (numbers s'.queue) s.completed)
    (hwindow : s'.fromBlock = s'.toBlock ∨
      (s'.fromBlock = s'.startBlock ∧ s'.queue = [] ∧ s'.completed = ∅)) :
    Unique (tr ++ [(env, out)]) s' := by
  have hyields : yields (tr ++ [(env, out)]) = yields tr := by
    rw [yields_append, hnone, List.append_nil]
  exact {
    pending := by rw [hcompleted]; exact hpending
    yielded := by rw [hyields, hcompleted]; exact h.yielded
    nodup := by rw [hyields]; exact h.nodup
    window := hwindow }

/-- A poll that yields the block at the front. -/
theorem Unique.yield (h : Unique tr s) {n : Nat} {ns : List Nat}
    (hpending : Pending (n :: ns) s.completed) (hone : yields [(env, out)] = [⟨some n⟩])
    (hqueue : numbers s'.queue = ns) (hcompleted : s'.completed = insert n s.completed)
    (hreached : s'.fromBlock = s'.toBlock) : Unique (tr ++ [(env, out)]) s' := by
  have hyields : yields (tr ++ [(env, out)]) = yields tr ++ [⟨some n⟩] := by
    rw [yields_append, hone]
  refine {
    pending := by rw [hqueue, hcompleted]; exact hpending.complete
    yielded := ?_
    nodup := ?_
    window := Or.inl hreached }
  · intro b hb
    rw [hyields] at hb
    rw [hcompleted]
    rcases List.mem_append.mp hb with hb | hb
    · obtain ⟨k, hk, hnumber⟩ := h.yielded b hb
      exact ⟨k, Finset.mem_insert_of_mem hk, hnumber⟩
    · obtain rfl := List.mem_singleton.mp hb
      exact ⟨n, Finset.mem_insert_self _ _, rfl⟩
  · rw [hyields, List.map_append]
    refine h.nodup.append (List.nodup_singleton _) ?_
    intro number hold hlast
    obtain rfl := List.mem_singleton.mp hlast
    obtain ⟨b, hb, hnumber⟩ := List.mem_map.mp hold
    obtain ⟨k, hk, hnumber'⟩ := h.yielded b hb
    obtain rfl := Option.some.inj (hnumber'.symm.trans hnumber)
    exact hpending.fresh k List.mem_cons_self hk

theorem Unique.poll (h : Unique tr s) (hproper : s.Proper)
    (hshort : s.toBlock - s.startBlock < s.capacity) (hhonest : env.Honest)
    (hstep : s.poll env = some (out, s')) : Unique (tr ++ [(env, out)]) s' := by
  rcases poll_cases hproper hstep with
    ⟨_, rfl, rfl⟩ | ⟨blocks, from', item, rest, hadvance, hqueue, hsettle, rfl⟩
  · exact h.idle rfl rfl h.pending h.window
  · obtain ⟨hpending, hreached⟩ := h.advance hproper hshort hadvance
    have hnumbers := congrArg numbers hqueue
    rw [numbers_push] at hnumbers
    rw [hnumbers] at hpending
    have hpending' : Pending (item.2.key.number :: numbers rest) s.completed := hpending
    cases hfate : env.fate item with
    | yielded b =>
        obtain rfl := hhonest.eq_of_yielded hfate
        rw [hfate, settle_yielded item (hpending'.small _ List.mem_cons_self)] at hsettle
        obtain rfl := Option.some.inj hsettle
        exact h.yield hpending' rfl rfl rfl hreached
    | kept =>
        rw [hfate] at hsettle
        obtain rfl := Option.some.inj hsettle
        refine h.idle rfl rfl (hpending'.perm ?_) (Or.inl hreached)
        simp only [numbers, List.map_append, List.map_cons, List.map_nil]
        exact List.perm_append_singleton _ _
    | null =>
        rw [hfate] at hsettle
        obtain rfl := Option.some.inj hsettle
        exact h.idle rfl rfl hpending'.tail (Or.inl hreached)
    | failed e =>
        rw [hfate] at hsettle
        obtain rfl := Option.some.inj hsettle
        exact h.idle rfl rfl hpending'.tail (Or.inl hreached)
    | late =>
        rw [hfate] at hsettle
        obtain rfl := Option.some.inj hsettle
        exact h.idle rfl rfl hpending'.tail (Or.inl hreached)

/-- A range that fits the buffer is yielded without repetition. -/
theorem nodup_of_short {s₀ : BlockStream} (hproper : s₀.Proper)
    (hshort : s₀.toBlock - s₀.startBlock < s₀.capacity) (hempty : s₀.queue = [])
    (hfrom : s₀.fromBlock = s₀.startBlock) (hcompleted : s₀.completed = ∅)
    (hrun : machine.Run s₀ tr s) (hhonest : ∀ e ∈ tr, e.1.Honest) :
    ((yields tr).map (·.number)).Nodup := by
  have hinv : (Runs s₀ tr s ∧ ((∀ e ∈ tr, e.1.Honest) → Unique tr s)) := by
    refine hrun.invariant (I := fun tr s => Runs s₀ tr s ∧ ((∀ e ∈ tr, e.1.Honest) → Unique tr s))
      ⟨runs_of_run hproper hcompleted Mealy.Run.nil, ?_⟩ ?_
    · intro _
      refine ⟨?_, by simp [yields], by simp [yields], Or.inr ⟨hfrom, hempty, hcompleted⟩⟩
      rw [hempty]
      exact ⟨List.nodup_nil, by simp [numbers], by simp [numbers]⟩
    · rintro tr t t' env out hprev ⟨hruns, hunique⟩ hstep
      refine ⟨runs_of_run hproper hcompleted (Mealy.Run.snoc hprev hstep), ?_⟩
      intro hhonest
      have hshort' : t.toBlock - t.startBlock < t.capacity := by
        rw [hruns.toBlock, hruns.startBlock, hruns.capacity]
        exact hshort
      exact (hunique fun e he => hhonest e (List.mem_append_left _ he)).poll hruns.proper hshort'
        (hhonest (env, out) (List.mem_append_right _ List.mem_cons_self)) hstep
  exact (hinv.2 hhonest).nodup

/-! ## Longer ranges -/

theorem promptServer_honest : promptServer.Honest := fun _ => Or.inr rfl

/-- A poll by a prompt server yields the front of the queue. -/
theorem prompt_poll (h : s.Proper) (hleft : s.queue ≠ [] ∨ s.fromBlock < s.toBlock) :
    ∃ blocks from' n s' out, Advance s blocks from' ∧
      machine.step s promptServer = some (out, s') ∧ yields [(promptServer, out)] = [⟨some n⟩] ∧
      numbers s.queue ++ blocks = n :: numbers s'.queue ∧ s'.fromBlock = from' ∧
      s'.toBlock = s.toBlock ∧ s'.Proper := by
  obtain ⟨out, s', hstep⟩ := @poll_total s promptServer h fun f b hanswer => by
    cases hanswer
    simp
  rcases poll_cases h hstep with
    ⟨hended, _, _⟩ | ⟨blocks, from', item, rest, hadvance, hqueue, hsettle, rfl⟩
  · rcases hleft with hqueue | hshort
    · exact absurd hended.queue hqueue
    · exact absurd hended.reached (Nat.ne_of_lt hshort)
  · have hnumbers := congrArg numbers hqueue
    rw [numbers_push] at hnumbers
    obtain ⟨_, hfrom, hto, _⟩ := settle_fields hsettle
    have hrest : s'.queue = rest := by
      have hfate : promptServer.fate item = .yielded ⟨some item.2.key.number⟩ := rfl
      rw [hfate] at hsettle
      obtain rfl := Option.some.inj hsettle
      rfl
    refine ⟨blocks, from', item.2.key.number, s', _, hadvance, hstep, rfl, ?_, hfrom, hto,
      h.poll hstep⟩
    rw [hrest]
    exact hnumbers

/-- The queue holds `ns`, and the block `m` comes next: it is at the front of the
next window, or already requested. -/
def Upcoming (ns : List Nat) (m : Nat) (s : BlockStream) : Prop :=
  (numbers s.queue = ns ∧ s.fromBlock = m ∧ m < s.toBlock) ∨
  ∃ more, numbers s.queue = ns ++ m :: more

theorem Advance.window {blocks : List Nat} {from' : Nat} (h : Advance s blocks from')
    (hshort : s.fromBlock < s.toBlock) :
    (blocks = [] ∧ from' = s.fromBlock ∧ s.queue ≠ []) ∨ ∃ more, blocks = s.fromBlock :: more := by
  cases h with
  | recover reached => exact absurd reached (Nat.ne_of_lt hshort)
  | drain reached => exact absurd reached (Nat.ne_of_lt hshort)
  | busy _ full => exact Or.inl ⟨rfl, rfl, fun hnil => by simp [hnil] at full⟩
  | fetch many => exact Or.inr ⟨_, List.range'_succ⟩

/-- A prompt poll takes the front, and what was upcoming stays so. -/
theorem Upcoming.poll {n m : Nat} {ns : List Nat} (hup : Upcoming (n :: ns) m s) (h : s.Proper) :
    ∃ s' out, machine.step s promptServer = some (out, s') ∧
      yields [(promptServer, out)] = [⟨some n⟩] ∧ Upcoming ns m s' ∧ s'.Proper := by
  have hleft : s.queue ≠ [] := by
    intro hnil
    rcases hup with ⟨hqueue, _⟩ | ⟨more, hqueue⟩ <;> simp [hnil, numbers] at hqueue
  obtain ⟨blocks, from', k, s', out, hadvance, hstep, hyield, hnumbers, hfrom, hto, hproper⟩ :=
    prompt_poll h (Or.inl hleft)
  rcases hup with ⟨hqueue, hm, hshort⟩ | ⟨more, hqueue⟩
  · rw [hqueue, List.cons_append] at hnumbers
    obtain ⟨rfl, hrest⟩ := List.cons.inj hnumbers
    refine ⟨s', out, hstep, hyield, ?_, hproper⟩
    rcases hadvance.window (hm ▸ hshort) with ⟨rfl, hstay, _⟩ | ⟨more, rfl⟩
    · rw [List.append_nil] at hrest
      exact Or.inl ⟨hrest.symm, hfrom.trans (hstay.trans hm), hto ▸ hshort⟩
    · exact Or.inr ⟨more, by rw [← hrest, hm]⟩
  · rw [hqueue, List.cons_append, List.cons_append] at hnumbers
    obtain ⟨rfl, hrest⟩ := List.cons.inj hnumbers
    refine ⟨s', out, hstep, hyield, Or.inr ⟨more ++ blocks, ?_⟩, hproper⟩
    rw [← hrest, List.append_assoc, List.cons_append]

/-- With nothing before it, the upcoming block is yielded. -/
theorem Upcoming.last {m : Nat} (hup : Upcoming [] m s) (h : s.Proper) :
    ∃ s' out, machine.step s promptServer = some (out, s') ∧
      yields [(promptServer, out)] = [⟨some m⟩] := by
  have hleft : s.queue ≠ [] ∨ s.fromBlock < s.toBlock := by
    rcases hup with ⟨_, hm, hshort⟩ | ⟨more, hqueue⟩
    · exact Or.inr (hm ▸ hshort)
    · exact Or.inl fun hnil => by simp [hnil, numbers] at hqueue
  obtain ⟨blocks, from', k, s', out, hadvance, hstep, hyield, hnumbers, _, _, _⟩ :=
    prompt_poll h hleft
  refine ⟨s', out, hstep, ?_⟩
  have hk : k = m := by
    rcases hup with ⟨hqueue, hm, hshort⟩ | ⟨more, hqueue⟩
    · rcases hadvance.window (hm ▸ hshort) with ⟨_, _, hne⟩ | ⟨more, rfl⟩
      · exact absurd (List.map_eq_nil_iff.mp hqueue) hne
      · rw [hqueue, hm] at hnumbers
        exact (List.cons.inj hnumbers).1.symm
    · rw [hqueue] at hnumbers
      exact (List.cons.inj hnumbers).1.symm
  rw [hyield, hk]

/-- A prompt server gets the queue and then the upcoming block yielded. -/
theorem prompt_run {ns : List Nat} {m : Nat} (h : s.Proper) (hup : Upcoming ns m s) :
    ∃ tr s', machine.Run s tr s' ∧ (∀ e ∈ tr, e.1 = promptServer) ∧
      yields tr = (ns ++ [m]).map fun n => ⟨some n⟩ := by
  induction ns generalizing s with
  | nil =>
      obtain ⟨s', out, hstep, hyield⟩ := hup.last h
      exact ⟨_, s', Mealy.Run.single hstep, by simp, hyield⟩
  | cons n ns ih =>
      obtain ⟨s₁, out, hstep, hyield, hup', hproper⟩ := hup.poll h
      obtain ⟨tr, s', hrun, hprompt, hyields⟩ := ih hproper hup'
      refine ⟨(promptServer, out) :: tr, s', Mealy.run_cons.mpr ⟨s₁, hstep, hrun⟩, ?_, ?_⟩
      · intro e he
        rcases List.mem_cons.mp he with rfl | he
        · rfl
        · exact hprompt e he
      · rw [← List.singleton_append, yields_append, hyield, hyields]
        rfl

/-- After its first poll the stream has the other 49 blocks of its first window
queued, and asks for the last of them again next. -/
theorem upcoming_of_first_poll {fromBlock toBlock : Nat} (withTx : Bool)
    (hlong : fromBlock + 50 ≤ toBlock) (hto : toBlock + 1 < word) :
    ∃ s' out, machine.step (new fromBlock toBlock withTx) promptServer = some (out, s') ∧
      s'.Proper ∧ Upcoming (List.range' (fromBlock + 1) 49) (fromBlock + 49) s' := by
  have hproper : (new fromBlock toBlock withTx).Proper := Proper.new (by omega) hto
  have hshort : fromBlock < toBlock := by omega
  obtain ⟨blocks, from', k, s', out, hadvance, hstep, _, hnumbers, hfrom, hto', hproper'⟩ :=
    prompt_poll hproper (Or.inr hshort)
  refine ⟨s', out, hstep, hproper', Or.inl ?_⟩
  generalize hnew : new fromBlock toBlock withTx = s at hadvance
  cases hadvance with
  | recover reached => rw [← hnew] at reached; exact absurd reached (Nat.ne_of_lt hshort)
  | drain reached => rw [← hnew] at reached; exact absurd reached (Nat.ne_of_lt hshort)
  | busy _ full => rw [← hnew] at full; exact absurd full (Nat.not_lt_zero _)
  | fetch many _ _ many_eq =>
      obtain rfl : many = 49 := by
        rw [many_eq, ← hnew]
        show min (toBlock - fromBlock) (5 * 10 - 0 - 1) = 49
        omega
      rw [← hnew] at hnumbers hfrom
      have hwindow : List.range' fromBlock 50 = k :: numbers s'.queue := hnumbers
      rw [List.range'_succ] at hwindow
      refine ⟨(List.cons.inj hwindow).2.symm, hfrom, ?_⟩
      rw [hto']
      show fromBlock + 49 < toBlock
      omega

/-- A range of more than 50 blocks: block `from + 49`, where the first two windows
meet, is yielded twice by a prompt server. -/
theorem exists_duplicate {fromBlock toBlock : Nat} (withTx : Bool)
    (hlong : fromBlock + 50 ≤ toBlock) (hto : toBlock + 1 < word) :
    ∃ tr s, machine.Run (new fromBlock toBlock withTx) tr s ∧ (∀ e ∈ tr, e.1.Honest) ∧
      ¬ ((yields tr).map (·.number)).Nodup := by
  obtain ⟨s', out, hstep, hproper, hup⟩ := upcoming_of_first_poll withTx hlong hto
  obtain ⟨tr, s, hrun, hprompt, hyields⟩ := prompt_run hproper hup
  refine ⟨(promptServer, out) :: tr, s, Mealy.run_cons.mpr ⟨s', hstep, hrun⟩, ?_, ?_⟩
  · intro e he
    rcases List.mem_cons.mp he with rfl | he
    · exact promptServer_honest
    · exact hprompt e he ▸ promptServer_honest
  · intro hnodup
    rw [← List.singleton_append, yields_append, List.map_append, hyields] at hnodup
    have hlater := (List.nodup_append.mp hnodup).2.1
    rw [List.map_map, List.map_append, List.nodup_append] at hlater
    have hmem : fromBlock + 49 ∈ List.range' (fromBlock + 1) 49 :=
      List.mem_range'_1.mpr (by omega)
    exact hlater.2.2 _ (List.mem_map.mpr ⟨_, hmem, rfl⟩) _ (List.mem_singleton.mpr rfl) rfl

/-- **An honest server gets no block yielded twice, in any run, exactly when the
range has at most 50 blocks.** -/
theorem unique_iff_short {fromBlock toBlock : Nat} {withTx : Bool} (hle : fromBlock ≤ toBlock)
    (hto : toBlock + 1 < word) :
    (new fromBlock toBlock withTx).NeverRepeats ↔ toBlock - fromBlock < 50 := by
  constructor
  · intro hunique
    by_contra hlong
    obtain ⟨tr, s, hrun, hhonest, hdup⟩ :=
      @exists_duplicate fromBlock toBlock withTx (by omega) hto
    exact hdup (hunique tr s hrun hhonest)
  · intro hshort tr s hrun hhonest
    exact nodup_of_short (Proper.new hle hto) hshort rfl rfl rfl hrun hhonest

/-- The 50 blocks from 100 on are yielded once each, in any run. -/
theorem fifty_blocks_unique : (new 100 149 false).NeverRepeats :=
  (unique_iff_short (by decide) (by decide)).mpr (by decide)

/-- The 51 blocks from 100 on are not. -/
theorem fifty_one_blocks_repeat : ¬ (new 100 150 false).NeverRepeats := by
  intro hunique
  obtain ⟨tr, s, hrun, hhonest, hdup⟩ := @exists_duplicate 100 150 false (by decide) (by decide)
  exact hdup (hunique tr s hrun hhonest)

end BlockStream

end Ethereyum
