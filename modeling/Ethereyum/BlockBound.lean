/-
# `BlockBound` — how many futures a block stream keeps waiting

The forward fetch takes as many blocks as the queue has room for.  The fetch that
recovers the missing blocks takes them all, however many of them failed.
`length_le_capacity_iff` says for one poll when the queue stays within its capacity,
`queue_bounded_iff` for a run.
-/
import Ethereyum.Wakeup

namespace Ethereyum

namespace BlockStream

section bound
variable {s s' : BlockStream} {env : PollEnv BlockRequest Block}
  {out : PollOut BlockRequest Block}
  {tr : List (PollEnv BlockRequest Block × PollOut BlockRequest Block)}

/-- The missing blocks fit the queue when they are recovered: all of them, or all
but the one that the same poll takes and lets go. -/
def Fits (s : BlockStream) (env : PollEnv BlockRequest Block) : Prop :=
  s.fromBlock = s.toBlock → s.queue = [] →
    s.missing.length ≤ s.capacity ∨
    (s.missing.length = s.capacity + 1 ∧
      ∀ f ∈ (s.futures s.missing).head?, env.fate (env.stamp f, f) ≠ .kept)

/-- What is put back makes the queue one longer. -/
theorem length_requeue (fate : Fate Block) (item : Nat × Ticket BlockRequest)
    (rest : List (Nat × Ticket BlockRequest)) :
    (fate = .kept ∧ (fate.requeue item rest).length = rest.length + 1) ∨
    (fate ≠ .kept ∧ (fate.requeue item rest).length = rest.length) := by
  cases fate with
  | kept => exact Or.inl ⟨rfl, List.length_append⟩
  | yielded b => exact Or.inr ⟨by simp, rfl⟩
  | null => exact Or.inr ⟨by simp, rfl⟩
  | failed e => exact Or.inr ⟨by simp, rfl⟩
  | late => exact Or.inr ⟨by simp, rfl⟩

/-- A poll leaves the queue within its capacity exactly when what it recovers fits. -/
theorem length_le_capacity_iff (h : s.Proper) (hbound : s.queue.length ≤ s.capacity)
    (hstep : s.poll env = some (out, s')) : s'.queue.length ≤ s'.capacity ↔ Fits s env := by
  rcases poll_cases h hstep with
    ⟨hended, _, rfl⟩ | ⟨blocks, from', item, rest, hadvance, hqueue, hsettle, _⟩
  · refine iff_of_true hbound ?_
    intro _ _
    rw [hended.missing]
    exact Or.inl (Nat.zero_le _)
  · have hcapacity : s'.capacity = s.capacity := (settle_fields hsettle).2.2.2
    have hlen := congrArg List.length hqueue
    simp only [PollEnv.push, List.length_append, List.length_map, length_futures,
      List.length_cons] at hlen
    have hleft : (env.fate item = .kept ∧ s'.queue.length = rest.length + 1) ∨
        (env.fate item ≠ .kept ∧ s'.queue.length = rest.length) := by
      rw [settle_queue hsettle]
      exact length_requeue (env.fate item) item rest
    rw [hcapacity]
    cases hadvance with
    | drain reached left =>
        rw [List.length_nil] at hlen
        exact iff_of_true (by omega) fun _ hempty => absurd hempty left
    | busy short full =>
        rw [List.length_nil] at hlen
        exact iff_of_true (by omega) fun hreached => absurd hreached (Nat.ne_of_lt short)
    | fetch many short room many_eq =>
        have hpos := h.capacity_pos
        rw [List.length_range'] at hlen
        exact iff_of_true (by omega) fun hreached => absurd hreached (Nat.ne_of_lt short)
    | recover reached empty left =>
        rw [empty] at hqueue hlen
        -- the front of the queue is the future of the first missing block
        obtain ⟨f, fs, hfutures⟩ : ∃ f fs, s.futures s.missing = f :: fs := by
          refine List.exists_cons_of_ne_nil ?_
          rw [← List.length_pos_iff, length_futures, List.length_pos_iff]
          exact left
        have hfront : (env.stamp f, f) = item := by
          rw [hfutures] at hqueue
          exact (List.cons.inj hqueue).1
        have hfits : Fits s env ↔ s.missing.length ≤ s.capacity ∨
            (s.missing.length = s.capacity + 1 ∧ env.fate item ≠ .kept) := by
          simp [Fits, reached, empty, hfutures, hfront]
        rw [hfits]
        rcases hleft with ⟨hkept, heq⟩ | ⟨hgone, heq⟩
        · simp only [hkept, ne_eq, not_true_eq_false, and_false, or_false]
          simp only [List.length_nil] at hlen
          omega
        · simp only [hgone, ne_eq, not_false_eq_true, and_true]
          simp only [List.length_nil] at hlen
          omega

/-- **No more futures wait than the queue has places, in every state of a run, exactly
when every recovery of missing blocks fits.** -/
theorem queue_bounded_iff {fromBlock toBlock batch buffer : Nat} {withTx : Bool}
    (hle : fromBlock ≤ toBlock) (hto : toBlock + 1 < word) (hpos : 1 ≤ batch * buffer)
    (hlt : batch * buffer < word)
    (hrun : machine.Run (withOptions fromBlock toBlock withTx batch buffer) tr s) :
    (∀ pre post t, tr = pre ++ post →
      machine.Run (withOptions fromBlock toBlock withTx batch buffer) pre t →
      ∃ capacity, t.queueCapacity = some capacity ∧ t.queue.length ≤ capacity) ↔
    machine.Along Fits (withOptions fromBlock toBlock withTx batch buffer) tr := by
  have hstart : (withOptions fromBlock toBlock withTx batch buffer).Proper :=
    Proper.withOptions hle hto hpos hlt
  have hiff := hrun.always_iff
    (P := fun t => t.Proper ∧ t.queue.length ≤ t.capacity) (C := Fits) fun ht hstep =>
      (and_iff_right (ht.1.poll hstep)).trans (length_le_capacity_iff ht.1 ht.2 hstep)
  have hempty : (withOptions fromBlock toBlock withTx batch buffer).queue.length ≤
      (withOptions fromBlock toBlock withTx batch buffer).capacity := Nat.zero_le _
  refine Iff.trans ?_ (hiff.trans (and_iff_right ⟨hstart, hempty⟩))
  constructor
  · intro hbounded pre post t htr hpre
    have hproper := hstart.run hpre
    obtain ⟨capacity, hcapacity, hlength⟩ := hbounded pre post t htr hpre
    rw [hproper.queueCapacity_eq, Option.some.injEq] at hcapacity
    exact ⟨hproper, hcapacity ▸ hlength⟩
  · intro hbounded pre post t htr hpre
    obtain ⟨hproper, hlength⟩ := hbounded pre post t htr hpre
    exact ⟨t.capacity, hproper.queueCapacity_eq, hlength⟩

end bound

/-- A server that decodes no block. -/
def nullServer : PollEnv BlockRequest Block where
  answer _ := .ok (.ready none)
  stamp _ := 0
  now := 0

/-- A server that has the even blocks. -/
def evenServer : PollEnv BlockRequest Block where
  answer f := .ok (.ready (if f.key.number % 2 = 0 then some ⟨some f.key.number⟩ else none))
  stamp _ := 0
  now := 0

/-- Three of five blocks, requested again and again, fit a queue of four. -/
theorem three_blocks_fit : ∃ tr s,
    machine.exec (withOptions 7 11 false 2 2) (List.replicate 10 evenServer) = some (tr, s) ∧
    s.missing = [7, 9, 11] ∧
    ∀ pre post t, tr = pre ++ post → machine.Run (withOptions 7 11 false 2 2) pre t →
      ∃ capacity, t.queueCapacity = some capacity ∧ t.queue.length ≤ capacity := by
  obtain ⟨⟨tr, s⟩, hexec⟩ := Option.isSome_iff_exists.mp
    (show (machine.exec (withOptions 7 11 false 2 2)
      (List.replicate 10 evenServer)).isSome = true by decide +kernel)
  have hmissing : (machine.exec (withOptions 7 11 false 2 2)
      (List.replicate 10 evenServer)).map (fun r => r.2.missing) = some [7, 9, 11] := by
    decide +kernel
  rw [hexec] at hmissing
  refine ⟨tr, s, hexec, Option.some.inj hmissing, ?_⟩
  refine (queue_bounded_iff (by decide) (by decide) (by decide) (by decide)
    (Mealy.run_of_exec hexec)).mpr ?_
  refine Mealy.along_of_checks (p := fun t _ => decide (t.missing.length ≤ t.capacity) ||
    decide (t.fromBlock ≠ t.toBlock)) ?_ hexec (by decide +kernel)
  intro t env hfits hreached _
  rcases Bool.or_eq_true_iff.mp hfits with hroom | hforward
  · exact Or.inl (of_decide_eq_true hroom)
  · exact absurd hreached (of_decide_eq_true hforward)

/-- When none of the five blocks from 0 on comes through, four of them wait in a
queue of three after they were requested again. -/
theorem recovery_overfills : ∃ tr s,
    machine.Run (withOptions 0 4 false 3 1) tr s ∧ tr.map Prod.fst = List.replicate 8 nullServer ∧
    s.queueCapacity = some 3 ∧ s.queue.length = 4 := by
  have hrun : machine.Run (withOptions 0 4 false 3 1) _ _ :=
    Mealy.run_of_exec (show machine.exec (withOptions 0 4 false 3 1)
      (List.replicate 8 nullServer) = some (_, _) from rfl)
  exact ⟨_, _, hrun, rfl, rfl, rfl⟩

end BlockStream

end Ethereyum
