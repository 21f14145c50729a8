/-
# `Lib.Slots` — numbered members in a list, of which a step changes or adds one

A system with any number of parties keeps them in a list and names one by its
place.  A step replaces the entry of the party that moves, or adds a new party at
the end; these lemmas say which entry one finds afterwards.
-/
import Mathlib.Algebra.Order.Group.Multiset
import Mathlib.Data.List.Forall2
import Mathlib.Data.List.Induction
import Mathlib.Tactic.Abel

namespace Slots

variable {α : Type*} {l : List α} {i j : Nat} {a b : α}

/-- After a change at `i`, an entry is the new one or an old one elsewhere. -/
theorem getElem?_set_cases (h : (l.set i a)[j]? = some b) :
    (j = i ∧ b = a) ∨ (j ≠ i ∧ l[j]? = some b) := by
  rw [List.getElem?_set] at h
  by_cases hij : i = j
  · rw [if_pos hij] at h
    split at h
    · exact Or.inl ⟨hij.symm, (Option.some.inj h).symm⟩
    · cases h
  · rw [if_neg hij] at h
    exact Or.inr ⟨Ne.symm hij, h⟩

/-- After an addition, an entry is an old one or the new one at the end. -/
theorem getElem?_snoc_cases (h : (l ++ [a])[j]? = some b) :
    l[j]? = some b ∨ (j = l.length ∧ b = a) := by
  rcases Nat.lt_trichotomy j l.length with hlt | rfl | hgt
  · rw [List.getElem?_append_left hlt] at h
    exact Or.inl h
  · rw [List.getElem?_concat_length] at h
    exact Or.inr ⟨rfl, (Option.some.inj h).symm⟩
  · have hlen : (l ++ [a]).length ≤ j := by
      rw [List.length_append, List.length_singleton]
      exact hgt
    rw [List.getElem?_eq_none hlen] at h
    cases h

/-- An entry after a change by `f` is an old one, or what `f` makes of one. -/
theorem mem_modify_cases {f : α → α} (h : a ∈ l.modify i f) : a ∈ l ∨ ∃ b ∈ l, a = f b := by
  obtain ⟨j, hj⟩ := List.mem_iff_getElem?.mp h
  rw [List.getElem?_modify] at hj
  obtain ⟨b, hb, rfl⟩ := Option.map_eq_some_iff.mp hj
  by_cases hij : i = j
  · exact Or.inr ⟨b, List.mem_of_getElem? hb, by simp [hij]⟩
  · exact Or.inl (by simpa [hij] using List.mem_of_getElem? hb)

/-- What the entries hold, all together: a change at `i` trades what the old entry held
for what the new one holds. -/
theorem filterMap_set {β : Type*} (f : α → Option β) (h : l[i]? = some a) (b : α) :
    ((l.set i b).filterMap f : Multiset β) + (f a).toList = l.filterMap f + (f b).toList := by
  have hcons : ∀ (y : α) (l : List α),
      ((y :: l).filterMap f : Multiset β) = (f y).toList + l.filterMap f := by
    intro y l
    cases hy : f y with
    | none => simp [hy]
    | some z => simp [hy]
  induction l generalizing i with
  | nil => cases h
  | cons x l ih =>
      cases i with
      | zero =>
          obtain rfl := Option.some.inj h
          rw [List.set_cons_zero, hcons, hcons]
          abel
      | succ i =>
          rw [List.set_cons_succ, hcons, hcons, add_assoc, ih h, add_assoc]

/-- Of the numbered entries, those with the number `i` are the one entry at `i`. -/
theorem filterMap_zipIdx {β : Type*} (f : α → Option β) (l : List α) (i : Nat) :
    (l.zipIdx.filterMap fun e => if e.2 = i then f e.1 else none) = (l[i]?.bind f).toList := by
  induction l using List.reverseRecOn with
  | nil => rfl
  | append_singleton l a ih =>
      rw [List.zipIdx_append, List.filterMap_append, ih, List.zipIdx_singleton]
      rcases Nat.lt_trichotomy i l.length with hlt | rfl | hgt
      · have hne : l.length ≠ i := Nat.ne_of_gt hlt
        simp [List.getElem?_append_left hlt, hne]
      · cases hf : f a <;> simp [hf]
      · have hne : l.length ≠ i := Nat.ne_of_lt hgt
        have hlen : (l ++ [a]).length ≤ i := by
          rw [List.length_append, List.length_singleton]
          exact hgt
        simp [List.getElem?_eq_none hgt.le, List.getElem?_eq_none hlen, hne]

theorem lt_of_getElem? (h : l[i]? = some a) : i < l.length :=
  (List.getElem?_eq_some_iff.mp h).1

/-! ## Two lists in step -/

section step
variable {β : Type*} {R : α → β → Prop} {u : List β} {b : β}

/-- An entry has its partner in the other list. -/
theorem exists_right (h : List.Forall₂ R l u) (ha : a ∈ l) : ∃ b ∈ u, R a b := by
  induction h with
  | nil => cases ha
  | @cons a' b' l u hab _ ih =>
      rcases List.mem_cons.mp ha with rfl | ha
      · exact ⟨b', List.mem_cons_self, hab⟩
      · obtain ⟨b, hb, hab⟩ := ih ha
        exact ⟨b, List.mem_cons_of_mem _ hb, hab⟩

theorem exists_left (h : List.Forall₂ R l u) (hb : b ∈ u) : ∃ a ∈ l, R a b :=
  exists_right (R := flip R) h.flip hb

end step

end Slots
