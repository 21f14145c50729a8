/-
# `Lib.Mealy` — machines that answer their inputs, and what holds along their runs

A machine here is a partial function `step : σ → ι → Option (ο × σ)`: an input
moves the state and gives an output, and `none` says that the input cannot
happen in that state, either because it is not enabled there or because the
modelled code panics on it.  All nondeterminism (scheduling, clocks, what a
peer answers) sits in the inputs, so a run is determined by its inputs and a
quantifier over runs is a quantifier over everything the environment may do.

A trace lists the inputs with their outputs, oldest first.  Runs grow at the
end (`Run.snoc`), so that "every earlier output" is "every output of the trace
so far", and an invariant may speak about the trace as well as the state.

    Run.invariant          a fact about trace and state, step by step
    Run.invariant_along    the same, for runs whose steps all meet a condition
    Run.along_iff          a condition that the outputs tell
    Run.always_iff         a fact that exactly the steps with a condition keep
    Run.split, run_cons    cutting a run at a point
    exists_path            inputs that never fail make an infinite run
    Path.invariant         a fact about the states of an infinite run
    Path.eventually        an infinite run on which a measure falls reaches its end
    Path.eventually_later  the same, for a measure that falls sooner or later
    Path.until_or          a fact that holds until something happens
-/
import Mathlib.Data.List.Range
import Mathlib.Order.WellFounded
import Mathlib.Tactic.Basic

/-- A deterministic machine with outputs. -/
structure Mealy (σ ι ο : Type*) where
  step : σ → ι → Option (ο × σ)

namespace Mealy

variable {σ ι ο : Type*} (M : Mealy σ ι ο)

/-- `M.Run s tr s'`: the inputs of `tr` lead from `s` to `s'`, answered by the
outputs of `tr`. -/
inductive Run (s : σ) : List (ι × ο) → σ → Prop
  | nil : Run s [] s
  | snoc {tr : List (ι × ο)} {s' s'' : σ} {i : ι} {o : ο} :
      Run s tr s' → M.step s' i = some (o, s'') → Run s (tr ++ [(i, o)]) s''

/-- The run a list of inputs determines, when no step of it fails. -/
def exec (s : σ) : List ι → Option (List (ι × ο) × σ)
  | [] => some ([], s)
  | i :: is =>
      match M.step s i with
      | none => none
      | some (o, s') => (exec s' is).map fun r => ((i, o) :: r.1, r.2)

/-- Whether the steps of the run that `exec` computes meet `p`, each where it starts. -/
def checks (p : σ → ι → Bool) (s : σ) : List ι → Bool
  | [] => true
  | i :: is =>
      p s i && match M.step s i with
        | none => true
        | some (_, s') => checks p s' is

/-- Every step of the run from `s` along `tr` meets `C`, read at the state the
step starts from. -/
def Along (C : σ → ι → Prop) (s : σ) (tr : List (ι × ο)) : Prop :=
  ∀ (pre post : List (ι × ο)) (i : ι) (o : ο) (s' : σ),
    tr = pre ++ (i, o) :: post → M.Run s pre s' → C s' i

variable {M}

/-! ## Building runs and cutting them -/

theorem Run.single {s s' : σ} {i : ι} {o : ο} (h : M.step s i = some (o, s')) :
    M.Run s [(i, o)] s' :=
  Run.snoc Run.nil h

theorem Run.trans {s s' s'' : σ} {tr tr' : List (ι × ο)}
    (h : M.Run s tr s') (h' : M.Run s' tr' s'') : M.Run s (tr ++ tr') s'' := by
  induction h' with
  | nil => simpa using h
  | snoc _ hstep ih =>
      rw [← List.append_assoc]
      exact Run.snoc ih hstep

theorem run_nil {s s' : σ} : M.Run s [] s' ↔ s' = s := by
  constructor
  · intro h
    generalize htr : ([] : List (ι × ο)) = tr at h
    cases h with
    | nil => rfl
    | snoc _ _ => simp at htr
  · rintro rfl
    exact Run.nil

theorem run_snoc {s s'' : σ} {tr : List (ι × ο)} {i : ι} {o : ο} :
    M.Run s (tr ++ [(i, o)]) s'' ↔ ∃ s', M.Run s tr s' ∧ M.step s' i = some (o, s'') := by
  constructor
  · intro h
    generalize htr : tr ++ [(i, o)] = tr' at h
    cases h with
    | nil => simp at htr
    | snoc hrun hstep =>
        obtain ⟨rfl, hlast⟩ := List.append_inj' htr rfl
        simp only [List.cons.injEq, Prod.mk.injEq, and_true] at hlast
        obtain ⟨rfl, rfl⟩ := hlast
        exact ⟨_, hrun, hstep⟩
  · rintro ⟨s', hrun, hstep⟩
    exact Run.snoc hrun hstep

theorem Run.split {s s'' : σ} {tr tr' : List (ι × ο)} (h : M.Run s (tr ++ tr') s'') :
    ∃ s', M.Run s tr s' ∧ M.Run s' tr' s'' := by
  induction tr' using List.reverseRecOn generalizing s'' with
  | nil => exact ⟨s'', by simpa using h, Run.nil⟩
  | append_singleton tr' e ih =>
      rw [← List.append_assoc] at h
      obtain ⟨t, hrun, hstep⟩ := run_snoc.mp h
      obtain ⟨s', h₁, h₂⟩ := ih hrun
      exact ⟨s', h₁, Run.snoc h₂ hstep⟩

theorem run_cons {s s'' : σ} {tr : List (ι × ο)} {i : ι} {o : ο} :
    M.Run s ((i, o) :: tr) s'' ↔ ∃ s', M.step s i = some (o, s') ∧ M.Run s' tr s'' := by
  constructor
  · intro h
    have hcut : M.Run s ([(i, o)] ++ tr) s'' := h
    obtain ⟨s', h₁, h₂⟩ := hcut.split
    have hone : M.Run s ([] ++ [(i, o)]) s' := h₁
    obtain ⟨t, h₃, hstep⟩ := run_snoc.mp hone
    obtain rfl := run_nil.mp h₃
    exact ⟨s', hstep, h₂⟩
  · rintro ⟨s', hstep, h⟩
    exact (Run.single hstep).trans h

/-- The run that `exec` computes is a run. -/
theorem run_of_exec {s s' : σ} {is : List ι} {tr : List (ι × ο)}
    (h : M.exec s is = some (tr, s')) : M.Run s tr s' := by
  induction is generalizing s tr with
  | nil =>
      simp only [exec, Option.some.injEq, Prod.mk.injEq] at h
      obtain ⟨rfl, rfl⟩ := h
      exact Run.nil
  | cons i is ih =>
      cases hstep : M.step s i with
      | none => simp [exec, hstep] at h
      | some r =>
          simp only [exec, hstep, Option.map_eq_some_iff, Prod.mk.injEq] at h
          obtain ⟨r', hr, rfl, rfl⟩ := h
          exact run_cons.mpr ⟨_, hstep, ih hr⟩

/-- Two runs from one state on one list of inputs are the same run. -/
theorem Run.det {s s₁ s₂ : σ} {tr₁ tr₂ : List (ι × ο)} (h₁ : M.Run s tr₁ s₁)
    (h₂ : M.Run s tr₂ s₂) (hin : tr₁.map Prod.fst = tr₂.map Prod.fst) :
    tr₁ = tr₂ ∧ s₁ = s₂ := by
  induction h₁ generalizing tr₂ s₂ with
  | nil =>
      have htr : tr₂ = [] := List.map_eq_nil_iff.mp hin.symm
      subst htr
      exact ⟨rfl, (run_nil.mp h₂).symm⟩
  | @snoc tr t t' i o _ hstep ih =>
      induction tr₂ using List.reverseRecOn with
      | nil => simp at hin
      | append_singleton tr₂ e _ =>
          obtain ⟨j, p⟩ := e
          obtain ⟨u, hrun, hstep'⟩ := run_snoc.mp h₂
          simp only [List.map_append, List.map_cons, List.map_nil] at hin
          obtain ⟨hpre, hlast⟩ := List.append_inj' hin rfl
          obtain rfl : i = j := by simpa using hlast
          obtain ⟨rfl, rfl⟩ := ih hrun hpre
          rw [hstep, Option.some.injEq, Prod.mk.injEq] at hstep'
          obtain ⟨rfl, rfl⟩ := hstep'
          exact ⟨rfl, rfl⟩

/-! ## Invariants -/

/-- A fact about trace and state that holds at the start and is kept by every
step holds along every run. -/
theorem Run.invariant {I : List (ι × ο) → σ → Prop} {s s' : σ} {tr : List (ι × ο)}
    (h : M.Run s tr s') (start : I [] s)
    (keep : ∀ {tr : List (ι × ο)} {t t' : σ} {i : ι} {o : ο}, M.Run s tr t → I tr t →
      M.step t i = some (o, t') → I (tr ++ [(i, o)]) t') : I tr s' := by
  induction h with
  | nil => exact start
  | snoc hrun hstep ih => exact keep hrun ih hstep

theorem along_snoc {C : σ → ι → Prop} {s t : σ} {tr : List (ι × ο)} {i : ι} {o : ο}
    (h : M.Along C s (tr ++ [(i, o)])) (hrun : M.Run s tr t) :
    M.Along C s tr ∧ C t i := by
  refine ⟨fun pre post j p s' htr hpre => ?_, h tr [] i o t rfl hrun⟩
  exact h pre (post ++ [(i, o)]) j p s' (by simp [htr]) hpre

/-- Along one step a condition is met where the step starts. -/
theorem along_single {C : σ → ι → Prop} {s : σ} {i : ι} {o : ο} (h : C s i) :
    M.Along C s [(i, o)] := by
  intro pre post j p s' htr hpre
  cases pre with
  | nil =>
      obtain ⟨heq, _⟩ := List.cons.inj htr
      cases heq
      obtain rfl := run_nil.mp hpre
      exact h
  | cons e pre => simp at htr

/-- Along a step and the rest. -/
theorem along_cons {C : σ → ι → Prop} {s t : σ} {tr : List (ι × ο)} {i : ι} {o : ο} (h : C s i)
    (hstep : M.step s i = some (o, t)) (hrest : M.Along C t tr) : M.Along C s ((i, o) :: tr) := by
  intro pre post j p s' htr hpre
  cases pre with
  | nil =>
      obtain ⟨heq, _⟩ := List.cons.inj htr
      cases heq
      obtain rfl := run_nil.mp hpre
      exact h
  | cons e pre =>
      obtain ⟨rfl, htail⟩ := List.cons.inj htr
      obtain ⟨t', hstep', hrun⟩ := run_cons.mp hpre
      obtain rfl : t' = t := (Prod.mk.inj (Option.some.inj (hstep'.symm.trans hstep))).2
      exact hrest pre post j p s' htail hrun

/-- Two conditions that agree in every state of a run are met along it together. -/
theorem along_congr {C C' : σ → ι → Prop} {s : σ} {tr : List (ι × ο)}
    (h : ∀ {pre : List (ι × ο)} {t : σ} (i : ι), M.Run s pre t → (C t i ↔ C' t i)) :
    M.Along C s tr ↔ M.Along C' s tr := by
  constructor
  · intro halong pre post i o t htr hpre
    exact (h i hpre).mp (halong pre post i o t htr hpre)
  · intro halong pre post i o t htr hpre
    exact (h i hpre).mpr (halong pre post i o t htr hpre)

/-- A condition met by every input of a trace, in whatever state, is met along it. -/
theorem along_of_forall {C : σ → ι → Prop} {s : σ} {tr : List (ι × ο)}
    (h : ∀ e ∈ tr, ∀ t, C t e.1) : M.Along C s tr := by
  rintro pre post i o t rfl -
  exact h (i, o) (List.mem_append_right _ List.mem_cons_self) t

/-- A condition that was checked along a run is met along it. -/
theorem along_of_checks {C : σ → ι → Prop} {p : σ → ι → Bool} {s s' : σ} {is : List ι}
    {tr : List (ι × ο)} (hp : ∀ t i, p t i = true → C t i) (h : M.exec s is = some (tr, s'))
    (hchecks : M.checks p s is = true) : M.Along C s tr := by
  induction is generalizing s tr with
  | nil =>
      simp only [exec, Option.some.injEq, Prod.mk.injEq] at h
      obtain ⟨rfl, rfl⟩ := h
      exact along_of_forall (by simp)
  | cons i is ih =>
      cases hstep : M.step s i with
      | none => simp [exec, hstep] at h
      | some r =>
          simp only [exec, hstep, Option.map_eq_some_iff, Prod.mk.injEq] at h
          simp only [checks, hstep, Bool.and_eq_true] at hchecks
          obtain ⟨r', hr, rfl, rfl⟩ := h
          exact along_cons (hp s i hchecks.1) hstep (ih hr hchecks.2)

/-- `Run.invariant` for the runs whose steps all meet `C`. -/
theorem Run.invariant_along {C : σ → ι → Prop} {I : List (ι × ο) → σ → Prop} {s s' : σ}
    {tr : List (ι × ο)} (h : M.Run s tr s') (hC : M.Along C s tr) (start : I [] s)
    (keep : ∀ {tr : List (ι × ο)} {t t' : σ} {i : ι} {o : ο}, M.Run s tr t → C t i → I tr t →
      M.step t i = some (o, t') → I (tr ++ [(i, o)]) t') : I tr s' := by
  induction h with
  | nil => exact start
  | snoc hrun hstep ih =>
      obtain ⟨hpre, hlast⟩ := along_snoc hC hrun
      exact keep hrun hlast (ih hpre) hstep

/-- A condition that the outputs of the steps tell is met along a run exactly when all
its outputs say so. -/
theorem Run.along_iff {C : σ → ι → Prop} {P : ο → Prop} {s s' : σ} {tr : List (ι × ο)}
    (h : M.Run s tr s')
    (tells : ∀ {pre : List (ι × ο)} {t t' : σ} {i : ι} {o : ο}, M.Run s pre t →
      M.step t i = some (o, t') → (C t i ↔ P o)) :
    M.Along C s tr ↔ ∀ e ∈ tr, P e.2 := by
  constructor
  · rintro halong ⟨i, o⟩ he
    obtain ⟨pre, post, rfl⟩ := List.append_of_mem he
    obtain ⟨t, hpre, hpost⟩ := h.split
    obtain ⟨t', hstep, _⟩ := run_cons.mp hpost
    exact (tells hpre hstep).mp (halong pre post i o t rfl hpre)
  · rintro hall pre post i o t rfl hpre
    obtain ⟨t', hpre', hpost⟩ := h.split
    obtain ⟨_, rfl⟩ := hpre'.det hpre rfl
    obtain ⟨t', hstep, _⟩ := run_cons.mp hpost
    exact (tells hpre hstep).mpr (hall (i, o) (List.mem_append_right _ List.mem_cons_self))

/-- A fact that a step keeps exactly when it meets `C` holds in every state of a run
exactly when it holds at the start and every step meets `C`. -/
theorem Run.always_iff {C : σ → ι → Prop} {P : σ → Prop} {s s' : σ} {tr : List (ι × ο)}
    (h : M.Run s tr s')
    (keeps : ∀ {t t' : σ} {i : ι} {o : ο}, P t → M.step t i = some (o, t') → (P t' ↔ C t i)) :
    (∀ pre post t, tr = pre ++ post → M.Run s pre t → P t) ↔ P s ∧ M.Along C s tr := by
  constructor
  · intro halways
    refine ⟨halways [] tr s rfl Run.nil, ?_⟩
    rintro pre post i o t rfl hpre
    obtain ⟨u, hpre', hpost⟩ := h.split
    obtain ⟨_, rfl⟩ := hpre'.det hpre rfl
    obtain ⟨t', hstep, _⟩ := run_cons.mp hpost
    refine (keeps (halways pre _ u rfl hpre) hstep).mp ?_
    exact halways (pre ++ [(i, o)]) post t' (by simp) (Run.snoc hpre hstep)
  · rintro ⟨hstart, halong⟩ pre post t rfl hpre
    have hfront : M.Along C s pre := fun pre' post' i o u hpre' hrun =>
      halong pre' (post' ++ post) i o u (by simp [hpre']) hrun
    refine hpre.invariant_along hfront (I := fun _ t => P t) hstart ?_
    intro tr u u' i o _ hC hP hstep
    exact (keeps hP hstep).mpr hC

/-! ## Infinite runs -/

/-- An infinite run from `s`. -/
structure Path (M : Mealy σ ι ο) (s : σ) where
  state : ℕ → σ
  input : ℕ → ι
  output : ℕ → ο
  start : state 0 = s
  step : ∀ n, M.step (state n) (input n) = some (output n, state (n + 1))

/-- What a path did in its first `n` steps. -/
def Path.trace {s : σ} (p : M.Path s) (n : ℕ) : List (ι × ο) :=
  (List.range n).map fun k => (p.input k, p.output k)

theorem Path.trace_succ {s : σ} (p : M.Path s) (n : ℕ) :
    p.trace (n + 1) = p.trace n ++ [(p.input n, p.output n)] := by
  simp [Path.trace, List.range_succ]

theorem Path.run {s : σ} (p : M.Path s) (n : ℕ) : M.Run s (p.trace n) (p.state n) := by
  induction n with
  | zero => exact run_nil.mpr p.start
  | succ n ih =>
      rw [p.trace_succ]
      exact Run.snoc ih (p.step n)

/-- A fact that holds at the start of a path and is kept by its steps holds in all its
states. -/
theorem Path.invariant {I : σ → Prop} {s : σ} (p : M.Path s) (start : I s)
    (keep : ∀ n, I (p.state n) → I (p.state (n + 1))) (n : ℕ) : I (p.state n) := by
  induction n with
  | zero => exact p.start.symm ▸ start
  | succ n ih => exact keep n ih

/-- Inputs that can never fail make an infinite run. -/
theorem exists_path {I : σ → Prop} {s : σ} (hs : I s) (input : ℕ → ι)
    (total : ∀ (n : ℕ) (t : σ), I t → ∃ o t', M.step t (input n) = some (o, t') ∧ I t') :
    ∃ p : M.Path s, p.input = input := by
  choose o t' hstep hI using total
  let state : ℕ → { t // I t } := fun n =>
    Nat.rec ⟨s, hs⟩ (fun n t => ⟨t' n t.1 t.2, hI n t.1 t.2⟩) n
  exact ⟨{
    state := fun n => (state n).1
    input := input
    output := fun n => o n (state n).1 (state n).2
    start := rfl
    step := fun n => hstep n (state n).1 (state n).2 }, rfl⟩

/-- If from step `N` on every step is the awaited one or makes the measure
fall, the awaited step comes. -/
theorem Path.eventually {α : Type*} {r : α → α → Prop} (wf : WellFounded r) {s : σ}
    (p : M.Path s) (μ : σ → α) (done : ℕ → Prop) (N : ℕ)
    (fall : ∀ n, N ≤ n → done n ∨ r (μ (p.state (n + 1))) (μ (p.state n))) :
    ∃ n, N ≤ n ∧ done n := by
  suffices ∀ a n, N ≤ n → μ (p.state n) = a → ∃ m, N ≤ m ∧ done m from
    this _ N le_rfl rfl
  intro a
  induction a using wf.induction with
  | _ a ih =>
      intro n hn ha
      rcases fall n hn with hdone | hr
      · exact ⟨n, hn, hdone⟩
      · exact ih _ (ha ▸ hr) (n + 1) (by omega) rfl

/-- If from every step on some later step is the awaited one, or leaves the measure below what it
was, the awaited step comes. -/
theorem Path.eventually_later {α : Type*} {r : α → α → Prop} (wf : WellFounded r) {s : σ}
    (p : M.Path s) (μ : σ → α) (done : ℕ → Prop)
    (fall : ∀ n, ∃ m, n ≤ m ∧ (done m ∨ r (μ (p.state m)) (μ (p.state n)))) : ∃ n, done n := by
  suffices ∀ a n, μ (p.state n) = a → ∃ m, done m from this _ 0 rfl
  intro a
  induction a using wf.induction with
  | _ a ih =>
      intro n ha
      obtain ⟨m, _, hdone | hr⟩ := fall n
      · exact ⟨m, hdone⟩
      · exact ih _ (ha ▸ hr) m rfl

/-- A fact that every step keeps until `Q` happens: it holds still, or `Q` has happened. -/
theorem Path.until_or {P : σ → Prop} {Q : ℕ → Prop} {s : σ} (p : M.Path s) {n m : ℕ}
    (keep : ∀ k, n ≤ k → P (p.state k) → Q k ∨ P (p.state (k + 1))) (start : P (p.state n))
    (hle : n ≤ m) : P (p.state m) ∨ ∃ k, n ≤ k ∧ P (p.state k) ∧ Q k := by
  induction m, hle using Nat.le_induction with
  | base => exact Or.inl start
  | succ m hle ih =>
      rcases ih with hP | hQ
      · rcases keep m hle hP with hQ | hP'
        · exact Or.inr ⟨m, hle, hP, hQ⟩
        · exact Or.inl hP'
      · exact Or.inr hQ

end Mealy
