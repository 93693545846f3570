import ObjectFlow.Order

/-!
# Grouping a list

`groupBy f as` maps each value of `f` to the members of `as` that have it, in the order of `as`.
-/

namespace ObjectFlow

open Std

variable {α κ : Type} [Keyed κ]

/-- The members of a list sorted into groups, each group in the order of the list. -/
def groupBy (f : α → κ) (as : List α) : ExtTreeMap κ (List α) :=
  as.foldr (fun a groups => groups.insert (f a) (a :: groups.getD (f a) [])) ∅

/-- A group holds exactly the members of the list that belong to it. -/
theorem getD_groupBy [DecidableEq κ] (f : α → κ) (as : List α) (k : κ) :
    (groupBy f as).getD k [] = as.filter (f · = k) := by
  induction as with
  | nil => simp [groupBy]
  | cons a as ih =>
    rw [List.filter_cons, ← ih]
    simp only [groupBy, List.foldr_cons, ExtTreeMap.getD_insert, LawfulEqOrd.compare_eq_iff_eq]
    by_cases h : f a = k <;> simp [h]

end ObjectFlow
