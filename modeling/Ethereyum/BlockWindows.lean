/-
# `BlockWindows` — the windows of a block stream tile its range

The last branch of `next` requests the blocks from `from` to `from + get_this_many`
and moves `from` to the last of them.  How many that are depends on the queue, and so
on when the futures were ready, but each window begins where the one before it
ended:

    from₀ ────── w₁ ───── from₁ ── w₂ ── from₂ ───── w₃ ───── from₃ ≤ to

Both ends of a window are requested, so two neighbours share a block and leave no gap
(`Tiling`).  `windows_tile` says so for every run, and that no operation on the way
leaves its type.
-/
import Ethereyum.BlockStream

namespace Ethereyum

/-! ## Tilings -/

/-- `Tiling a windows b`: the windows lead from `a` to `b`, each from the last number of
the one before it. -/
inductive Tiling (a : Nat) : List (List Nat) → Nat → Prop
  | nil : Tiling a [] a
  | snoc {windows : List (List Nat)} {b c : Nat} (before : Tiling a windows b) (le : b ≤ c) :
      Tiling a (windows ++ [List.range' b (c + 1 - b)]) c

theorem Tiling.le {a b : Nat} {windows : List (List Nat)} (h : Tiling a windows b) : a ≤ b := by
  induction h with
  | nil => exact le_rfl
  | snoc _ le ih => exact Nat.le_trans ih le

/-- The windows have the numbers from `a` to `b`, and no others. -/
theorem Tiling.mem_iff {a b : Nat} {windows : List (List Nat)} (h : Tiling a windows b)
    (hne : windows ≠ []) (n : Nat) : (∃ w ∈ windows, n ∈ w) ↔ a ≤ n ∧ n ≤ b := by
  induction h with
  | nil => exact absurd rfl hne
  | @snoc windows b c before le ih =>
      have hab := before.le
      have hlast : n ∈ List.range' b (c + 1 - b) ↔ b ≤ n ∧ n ≤ c := by
        rw [List.mem_range'_1]
        omega
      simp only [List.mem_append, List.mem_singleton, or_and_right, exists_or, exists_eq_left,
        hlast]
      cases before with
      | nil =>
          simp
      | snoc before' le' =>
          rw [ih (by simp)]
          omega

namespace BlockStream

/-! ## Forward fetches -/

/-- The guards of `next` lead to its last branch, which fetches forward. -/
def forwards (s : BlockStream) : Bool :=
  s.fromBlock != s.toBlock && s.halfCapacity.any fun half => decide (s.queue.length ≤ half)

/-- The block numbers that a step from `s` to `s'` requested by a forward fetch. -/
def window (s s' : BlockStream) : Option (List Nat) :=
  if s.forwards then some ((s'.asked.drop s.asked.length).map (·.number)) else none

/-- The stream, polled again and again; a poll also puts out the window it fetched. -/
def windowMachine : Mealy BlockStream (PollEnv BlockRequest Block)
    (PollOut BlockRequest Block × Option (List Nat)) where
  step s env := (s.poll env).map fun r => ((r.1, s.window r.2), r.2)

/-- The windows that were fetched along a trace, in order. -/
def windows (tr : List (PollEnv BlockRequest Block × PollOut BlockRequest Block ×
    Option (List Nat))) : List (List Nat) :=
  tr.filterMap fun e => e.2.2

/-- A server that is silent, past five seconds. -/
def lateServer : PollEnv BlockRequest Block where
  answer _ := .ok .notReady
  stamp _ := 0
  now := fiveSeconds

section windows
variable {s s' : BlockStream} {env : PollEnv BlockRequest Block}
  {out : PollOut BlockRequest Block} {w : Option (List Nat)}
  {tr : List (PollEnv BlockRequest Block × PollOut BlockRequest Block × Option (List Nat))}

theorem Proper.forwards_iff (h : s.Proper) :
    s.forwards = true ↔ s.fromBlock ≠ s.toBlock ∧ s.queue.length ≤ s.capacity / 2 := by
  simp [forwards, h.halfCapacity_eq]

theorem windowMachine_step :
    windowMachine.step s env = some ((out, w), s') ↔
      s.poll env = some (out, s') ∧ w = s.window s' := by
  simp only [windowMachine, Option.map_eq_some_iff, Prod.mk.injEq]
  constructor
  · rintro ⟨⟨_, _⟩, hpoll, ⟨rfl, rfl⟩, rfl⟩
    exact ⟨hpoll, rfl⟩
  · rintro ⟨hpoll, rfl⟩
    exact ⟨_, hpoll, ⟨rfl, rfl⟩, rfl⟩

/-- A poll leaves `from` where it is, or moves it to the end of the window it fetches. -/
theorem window_cases (h : s.Proper) (hstep : s.poll env = some (out, s')) :
    (s.window s' = none ∧ s'.fromBlock = s.fromBlock) ∨
    (s.fromBlock ≤ s'.fromBlock ∧
      s.window s' = some (List.range' s.fromBlock (s'.fromBlock + 1 - s.fromBlock))) := by
  have hstill : ¬ (s.fromBlock ≠ s.toBlock ∧ s.queue.length ≤ s.capacity / 2) →
      s.window s' = none := by
    intro hguard
    exact if_neg fun hforwards => hguard (h.forwards_iff.mp hforwards)
  rcases poll_cases h hstep with
    ⟨hended, _, rfl⟩ | ⟨blocks, from', item, rest, hadvance, _, hsettle, _⟩
  · exact Or.inl ⟨hstill fun hguard => hguard.1 hended.reached, rfl⟩
  · obtain ⟨_, _, rfl⟩ := settle_frame hsettle
    cases hadvance with
    | recover reached => exact Or.inl ⟨hstill fun hguard => hguard.1 reached, rfl⟩
    | drain reached => exact Or.inl ⟨hstill fun hguard => hguard.1 reached, rfl⟩
    | busy short full => exact Or.inl ⟨hstill fun hguard => absurd hguard.2 (by omega), rfl⟩
    | fetch many short room many_eq =>
        refine Or.inr ⟨Nat.le_add_right _ _, ?_⟩
        have hforwards : s.forwards = true := h.forwards_iff.mpr ⟨Nat.ne_of_lt short, room⟩
        have hcount : s.fromBlock + many + 1 - s.fromBlock = many + 1 := by omega
        simp only [window, if_pos hforwards, advance, getBlocks, List.drop_left, List.map_map,
          hcount]
        exact congrArg some (List.map_id _)

theorem poll_range (h : s.Proper) (hstep : s.poll env = some (out, s')) :
    s'.startBlock = s.startBlock ∧ s'.toBlock = s.toBlock := by
  rcases poll_cases h hstep with ⟨_, _, rfl⟩ | ⟨_, _, _, _, _, _, hsettle, _⟩
  · exact ⟨rfl, rfl⟩
  · obtain ⟨hstart, _, hto, _⟩ := settle_fields hsettle
    exact ⟨hstart, hto⟩

/-- What a run over a proper range keeps. -/
structure Tiled (s₀ : BlockStream)
    (tr : List (PollEnv BlockRequest Block × PollOut BlockRequest Block × Option (List Nat)))
    (s : BlockStream) : Prop where
  proper : s.Proper
  startBlock : s.startBlock = s₀.startBlock
  toBlock : s.toBlock = s₀.toBlock
  tiling : Tiling s₀.fromBlock (windows tr) s.fromBlock

theorem tiled_of_run {s₀ : BlockStream} (h : s₀.Proper) (hrun : windowMachine.Run s₀ tr s) :
    Tiled s₀ tr s := by
  refine hrun.invariant (I := Tiled s₀) ⟨h, rfl, rfl, .nil⟩ ?_
  rintro tr t t' env ⟨out, w⟩ _ ih hstep
  obtain ⟨hpoll, rfl⟩ := windowMachine_step.mp hstep
  obtain ⟨hstart, hto⟩ := poll_range ih.proper hpoll
  refine { proper := ih.proper.poll hpoll, startBlock := hstart.trans ih.startBlock,
           toBlock := hto.trans ih.toBlock, tiling := ?_ }
  have hsnoc : windows (tr ++ [(env, out, t.window t')]) = windows tr ++ (t.window t').toList := by
    cases t.window t' <;> simp [windows]
  rw [hsnoc]
  rcases window_cases ih.proper hpoll with ⟨hnone, hfrom⟩ | ⟨hle, hsome⟩
  · rw [hnone, hfrom, Option.toList_none, List.append_nil]
    exact ih.tiling
  · rw [hsome, Option.toList_some]
    exact .snoc ih.tiling hle

/-- **The forward fetches of a stream tile its range from the first block to `from`**,
which stays in the range and never falls, and no operation of `next` leaves its type. -/
theorem windows_tile {fromBlock toBlock batch buffer : Nat} {withTx : Bool}
    (hle : fromBlock ≤ toBlock) (hto : toBlock + 1 < word) (hpos : 1 ≤ batch * buffer)
    (hlt : batch * buffer < word)
    (hrun : windowMachine.Run (withOptions fromBlock toBlock withTx batch buffer) tr s) :
    (s.startBlock = fromBlock ∧ s.toBlock = toBlock ∧ s.startBlock ≤ s.fromBlock ∧
      s.fromBlock ≤ toBlock) ∧
    (∀ env, s.next env ≠ none) ∧
    (∀ env o s', windowMachine.step s env = some (o, s') → s.fromBlock ≤ s'.fromBlock) ∧
    Tiling s.startBlock (windows tr) s.fromBlock ∧
    (windows tr ≠ [] → ∀ n, (∃ w ∈ windows tr, n ∈ w) ↔ s.startBlock ≤ n ∧ n ≤ s.fromBlock) := by
  have htiled := tiled_of_run (Proper.withOptions hle hto hpos hlt) hrun
  have hproper := htiled.proper
  have hstart : s.startBlock = fromBlock := htiled.startBlock
  have hend : s.toBlock = toBlock := htiled.toBlock
  have htiling : Tiling s.startBlock (windows tr) s.fromBlock := hstart ▸ htiled.tiling
  refine ⟨⟨hstart, hend, hproper.start_le, hend ▸ hproper.from_le⟩, ?_, ?_, htiling, ?_⟩
  · intro env hnone
    rcases next_eq hproper env with ⟨_, hnext⟩ | ⟨_, _, _, _, _, _, hnext⟩
    · rw [hnext] at hnone
      cases hnone
    · rw [hnext] at hnone
      cases hnone
  · rintro env ⟨out, w⟩ s' hstep
    obtain ⟨hpoll, _⟩ := windowMachine_step.mp hstep
    rcases window_cases hproper hpoll with ⟨_, hfrom⟩ | ⟨hge, _⟩
    · exact Nat.le_of_eq hfrom.symm
    · exact hge
  · intro hne n
    exact htiling.mem_iff hne n

end windows

/-- With four places, and a server that is silent, three polls fetch the blocks from 0
to 3 and the blocks 3 and 4. -/
theorem two_windows_tile : ∃ tr s,
    windowMachine.exec (withOptions 0 9 false 2 2) (List.replicate 3 lateServer) = some (tr, s) ∧
    windows tr = [[0, 1, 2, 3], [3, 4]] ∧
    ∀ n, (∃ w ∈ windows tr, n ∈ w) ↔ s.startBlock ≤ n ∧ n ≤ s.fromBlock := by
  refine ⟨_, _, rfl, rfl, ?_⟩
  have hrun : windowMachine.Run (withOptions 0 9 false 2 2) _ _ :=
    Mealy.run_of_exec (show windowMachine.exec (withOptions 0 9 false 2 2)
      (List.replicate 3 lateServer) = some (_, _) from rfl)
  have htile := windows_tile (by decide) (by decide) (by decide) (by decide) hrun
  exact htile.2.2.2.2 (List.cons_ne_nil _ _)

end BlockStream

end Ethereyum
