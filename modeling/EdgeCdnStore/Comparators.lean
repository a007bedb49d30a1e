-- Sorting by a comparator, a function that says how one value stands to another. What
-- is sorted by a comparator is sorted backwards by the reverse of it, and a list that is
-- sorted by both has only values that stand as equal.
import Mathlib

open Std

namespace edge_cdn_store.comparators

/-! ## Lists compared -/

section Lists

variable {α : Type} [Ord α] [LT α] [LawfulLTOrd α] [LawfulEqOrd α]

/-- The comparison of two lists decides their lexicographic order. -/
theorem compare_eq_lt_iff (a b : List α) : compare a b = .lt ↔ a < b := by
  induction a generalizing b with
  | nil => cases b <;> simp
  | cons c a ih =>
    cases b with
    | nil => simp
    | cons d b =>
      rw [List.compare_cons_cons, Ordering.then_eq_lt, List.cons_lt_cons_iff, ih,
        LawfulLTCmp.eq_lt_iff_lt, LawfulEqCmp.compare_eq_iff_eq]

theorem compare_ne_gt_iff (a b : List α) : compare a b ≠ .gt ↔ ¬ b < a := by
  rw [← compare_eq_lt_iff, Ne, OrientedCmp.gt_iff_lt]

end Lists

/-! ## Sorted by a comparator -/

section Sorted

variable {α : Type} {cmp : α → α → Ordering}

/-- No value of the list stands behind a later one. -/
def Sorted (cmp : α → α → Ordering) (l : List α) : Prop := l.Pairwise fun a b => cmp a b ≠ .gt

theorem sorted_reverse {l : List α} : Sorted cmp l.reverse ↔ Sorted (fun a b => cmp b a) l := by
  unfold Sorted
  exact List.pairwise_reverse

variable [TransCmp cmp]

theorem sorted_insertionSort (cmp : α → α → Ordering) [TransCmp cmp] (l : List α) :
    Sorted cmp (l.insertionSort fun a b => cmp a b ≠ .gt) := by
  have htotal : Std.Total fun a b => cmp a b ≠ .gt := by
    constructor
    intro a b
    by_cases h : cmp a b = .gt
    · right
      rw [OrientedCmp.gt_iff_lt] at h
      rw [h]
      decide
    · exact Or.inl h
  have htrans : IsTrans α fun a b => cmp a b ≠ .gt := by
    constructor
    intro a b c hab hbc
    rw [Ne, ← Ordering.isLE_iff_ne_gt] at hab hbc ⊢
    exact TransCmp.isLE_trans hab hbc
  exact List.pairwise_insertionSort _ l

/-- A list is sorted both ways exactly when all its values stand as equal. -/
theorem sorted_both_ways {l : List α} :
    Sorted cmp l ∧ Sorted (fun a b => cmp b a) l ↔ ∀ a ∈ l, ∀ b ∈ l, cmp a b = .eq := by
  constructor
  · rintro ⟨hup, hdown⟩
    have hsame : l.Pairwise fun a b => cmp a b = .eq := by
      apply List.Pairwise.imp₂ _ hup hdown
      intro a b hab hba
      rw [Ne, OrientedCmp.gt_iff_lt] at hba
      cases h : cmp a b with
      | lt => exact absurd h hba
      | eq => rfl
      | gt => exact absurd h hab
    have hsymm : Std.Symm fun a b => cmp a b = .eq := ⟨fun _ _ => OrientedCmp.eq_symm⟩
    exact hsame.forall_of_forall fun _ _ => ReflCmp.compare_self
  · intro h
    constructor
    · apply List.pairwise_of_forall_mem_list
      intro a ha b hb
      rw [h a ha b hb]
      decide
    · apply List.pairwise_of_forall_mem_list
      intro a ha b hb
      change cmp b a ≠ .gt
      rw [h b hb a ha]
      decide

end Sorted

end edge_cdn_store.comparators
