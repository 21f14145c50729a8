/-
# `Lib.Simulation` — one machine carries out what another one does

`R` relates the states of a concrete machine with those of an abstract one, and both traces are
looked at through a list of observations, `view` and `view'`.  A step of the concrete machine is
matched by a run of the abstract one: none of its steps (the concrete machine does something the
abstract one does not speak of), one, or several.  What is observed must be the same, and the
states reached are related again.  The relation may speak of both traces so far, and the steps may
be asked to meet a condition.

    Simulation.run       every run is matched, with the same observations
    observed_single      what is observed of one step

A fact about all runs of the abstract machine that the observations tell is so a fact about all
runs of the concrete one.
-/
import Ethereyum.Lib.Mealy

namespace Mealy

variable {σ ι ο τ κ π ω : Type*}

/-- What is observed of a trace. -/
def observed (view : ι × ο → List ω) (tr : List (ι × ο)) : List ω := tr.flatMap view

@[simp] theorem observed_nil (view : ι × ο → List ω) : observed view [] = [] := rfl

theorem observed_append (view : ι × ο → List ω) (tr tr' : List (ι × ο)) :
    observed view (tr ++ tr') = observed view tr ++ observed view tr' :=
  List.flatMap_append

@[simp] theorem observed_single (view : ι × ο → List ω) (e : ι × ο) :
    observed view [e] = view e := by
  simp [observed]

/-- Every step of `M` that meets `C` is a run of `N`. -/
structure Simulation (M : Mealy σ ι ο) (N : Mealy τ κ π) (view : ι × ο → List ω)
    (view' : κ × π → List ω) (C : σ → ι → Prop)
    (R : List (ι × ο) → σ → List (κ × π) → τ → Prop) : Prop where
  step : ∀ {tr : List (ι × ο)} {s s' : σ} {tr' : List (κ × π)} {t : τ} {i : ι} {o : ο},
    R tr s tr' t → C s i → M.step s i = some (o, s') →
      ∃ more t', N.Run t more t' ∧ observed view' more = view (i, o) ∧
        R (tr ++ [(i, o)]) s' (tr' ++ more) t'

/-- A run of `M` is a run of `N`, with the same observations. -/
theorem Simulation.run {M : Mealy σ ι ο} {N : Mealy τ κ π} {view : ι × ο → List ω}
    {view' : κ × π → List ω} {C : σ → ι → Prop}
    {R : List (ι × ο) → σ → List (κ × π) → τ → Prop} (h : Simulation M N view view' C R)
    {s s' : σ} {t : τ} {tr : List (ι × ο)} (hrel : R [] s [] t) (hrun : M.Run s tr s')
    (halong : M.Along C s tr) :
    ∃ tr' t', N.Run t tr' t' ∧ observed view' tr' = observed view tr ∧ R tr s' tr' t' := by
  refine hrun.invariant_along halong
    (I := fun tr s' => ∃ tr' t', N.Run t tr' t' ∧ observed view' tr' = observed view tr ∧
      R tr s' tr' t') ⟨[], t, Run.nil, rfl, hrel⟩ ?_
  rintro tr u u' i o _ hC ⟨tr₁, t₁, hrun₁, hview₁, hrel₁⟩ hstep
  obtain ⟨tr₂, t₂, hrun₂, hview₂, hrel₂⟩ := h.step hrel₁ hC hstep
  refine ⟨tr₁ ++ tr₂, t₂, hrun₁.trans hrun₂, ?_, hrel₂⟩
  rw [observed_append, observed_append, hview₁, hview₂, observed_single]

end Mealy
