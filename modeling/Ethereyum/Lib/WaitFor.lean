/-
# `Lib.WaitFor` — locks, who has them, and who waits for whom

A party waits for the party that has the resource it wants.  When a party wants only
resources above all those it has, the ranks grow along the edges of this graph, and
there is no cycle in it, whatever else the parties do (`acyclic`).

To know what a party has, the parties are numbered members of a list, each in a state
that says which locks it holds, last taken first, and a table says whom each lock is
with.  `Owned` says that the two agree; taking a free lock and giving back the last
one taken keep it.
-/
import Ethereyum.Lib.Slots
import Mathlib.Logic.Relation
import Mathlib.Logic.Function.Basic

namespace WaitFor

/-! ## The graph -/

section graph
variable {θ ρ κ : Type*} [Preorder κ] {wants : θ → Option ρ} {owner : ρ → Option θ}

/-- `t` waits for `u`: it wants a resource that `u` has. -/
def Edge (wants : θ → Option ρ) (owner : ρ → Option θ) (t u : θ) : Prop :=
  ∃ r, wants t = some r ∧ owner r = some u

/-- Whoever has a resource that somebody wants, itself wants only one above it. -/
def Ranked (wants : θ → Option ρ) (owner : ρ → Option θ) (rank : ρ → κ) : Prop :=
  ∀ t u r r', wants t = some r → owner r = some u → wants u = some r' → rank r < rank r'

/-- Along a path of waits, what is wanted goes up. -/
theorem Ranked.lt_of_path {rank : ρ → κ} (h : Ranked wants owner rank) {t u : θ}
    (hpath : Relation.TransGen (Edge wants owner) t u) :
    ∀ r r', wants t = some r → wants u = some r' → rank r < rank r' := by
  induction hpath with
  | single hedge =>
      intro r r' hr hr'
      obtain ⟨q, hq, howner⟩ := hedge
      obtain rfl := Option.some.inj (hq.symm.trans hr)
      exact h t _ q r' hq howner hr'
  | tail _ hedge ih =>
      intro r r' hr hr'
      obtain ⟨q, hq, howner⟩ := hedge
      exact (ih r q hr hq).trans (h _ _ q r' hq howner hr')

/-- **Ranked resources exclude a circular wait.** -/
theorem Ranked.acyclic {rank : ρ → κ} (h : Ranked wants owner rank) (t : θ) :
    ¬ Relation.TransGen (Edge wants owner) t t := by
  intro hcycle
  obtain ⟨u, hedge, _⟩ := Relation.TransGen.head'_iff.mp hcycle
  obtain ⟨r, hr, _⟩ := hedge
  exact lt_irrefl _ (h.lt_of_path hcycle r r hr hr)

end graph

/-! ## Who has which lock -/

section owned
variable {π ℓ : Type*} {holds : π → List ℓ} {owner : ℓ → Option Nat} {threads : List π}
  {t : Nat} {th th' : π} {l : ℓ}

/-- The table and the states of the parties agree on who has which lock. -/
def Owned (holds : π → List ℓ) (owner : ℓ → Option Nat) (threads : List π) : Prop :=
  ∀ l t, owner l = some t ↔ ∃ th, threads[t]? = some th ∧ l ∈ holds th

/-- What the `t`-th party holds. -/
theorem holds_iff (ht : threads[t]? = some th) :
    (∃ x, threads[t]? = some x ∧ l ∈ holds x) ↔ l ∈ holds th := by
  rw [ht]
  simp

/-- What the `t`-th party holds once it has moved. -/
theorem holds_set_iff (ht : threads[t]? = some th) :
    (∃ x, (threads.set t th')[t]? = some x ∧ l ∈ holds x) ↔ l ∈ holds th' :=
  holds_iff (List.getElem?_set_self (Slots.lt_of_getElem? ht))

/-- A party moves on with the locks it has. -/
theorem Owned.keep (h : Owned holds owner threads) (ht : threads[t]? = some th)
    (hsame : holds th' = holds th) : Owned holds owner (threads.set t th') := by
  intro l u
  rw [h l u]
  by_cases hu : t = u
  · subst hu
    rw [holds_iff ht, holds_set_iff ht, hsame]
  · rw [List.getElem?_set_ne hu]

/-- A new party has no lock. -/
theorem Owned.snoc (h : Owned holds owner threads) (hnone : holds th = []) :
    Owned holds owner (threads ++ [th]) := by
  intro l u
  rw [h l u]
  constructor
  · rintro ⟨x, hx, hl⟩
    refine ⟨x, ?_, hl⟩
    rw [List.getElem?_append_left (Slots.lt_of_getElem? hx)]
    exact hx
  · rintro ⟨x, hx, hl⟩
    rcases Slots.getElem?_snoc_cases hx with hx | ⟨_, rfl⟩
    · exact ⟨x, hx, hl⟩
    · rw [hnone] at hl
      cases hl

variable [DecidableEq ℓ]

/-- A party takes a lock that is free. -/
theorem Owned.take (h : Owned holds owner threads) (ht : threads[t]? = some th)
    (hfree : owner l = none) (htaken : holds th' = l :: holds th) :
    Owned holds (Function.update owner l (some t)) (threads.set t th') := by
  intro l' u
  by_cases hu : t = u
  · subst hu
    rw [holds_set_iff ht, htaken, List.mem_cons]
    by_cases hl : l' = l
    · subst hl
      simp
    · rw [Function.update_of_ne hl, h l' t, holds_iff ht, or_iff_right hl]
  · rw [List.getElem?_set_ne hu, ← h l' u]
    by_cases hl : l' = l
    · subst hl
      simp [hfree, hu]
    · rw [Function.update_of_ne hl]

/-- A party gives back the lock it took last. -/
theorem Owned.give (h : Owned holds owner threads) (ht : threads[t]? = some th)
    (hgiven : holds th = l :: holds th') (honce : (holds th).Nodup) :
    Owned holds (Function.update owner l none) (threads.set t th') := by
  have howner : owner l = some t := (h l t).mpr ⟨th, ht, by simp [hgiven]⟩
  rw [hgiven] at honce
  have hgone : l ∉ holds th' := (List.nodup_cons.mp honce).1
  intro l' u
  by_cases hu : t = u
  · subst hu
    rw [holds_set_iff ht]
    by_cases hl : l' = l
    · subst hl
      simp [hgone]
    · rw [Function.update_of_ne hl, h l' t, holds_iff ht, hgiven, List.mem_cons, or_iff_right hl]
  · rw [List.getElem?_set_ne hu, ← h l' u]
    by_cases hl : l' = l
    · subst hl
      simp [howner, hu]
    · rw [Function.update_of_ne hl]

end owned

end WaitFor
