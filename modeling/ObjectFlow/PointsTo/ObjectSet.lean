import ObjectFlow.Program.Id

/-!
# Sets of objects
-/

namespace ObjectFlow

open Std

/-- A set of abstract objects, listed in ascending order. -/
abbrev ObjectSet := ExtTreeSet ObjId

namespace ObjectSet

def single (o : ObjId) : ObjectSet := (∅ : ObjectSet).insert o

/-- Add an object, and say whether it is new. -/
def add (s : ObjectSet) (o : ObjId) : Bool × ObjectSet := (!s.contains o, s.insert o)

/-- Add the members of another set, and give the new ones among them. -/
def addAll (s more : ObjectSet) : ObjectSet × ObjectSet := (more \ s, s ∪ more)

/-- Whether every member of one set belongs to another. -/
def isSubset (s t : ObjectSet) : Bool := s.toList.all t.contains

theorem mem_single {o p : ObjId} : p ∈ single o ↔ p = o := by
  rw [single, ExtTreeSet.mem_insert, LawfulEqOrd.compare_eq_iff_eq, @eq_comm ObjId o]
  simp

theorem isSubset_iff {s t : ObjectSet} : s.isSubset t = true ↔ ∀ o ∈ s, o ∈ t := by
  simp [isSubset, ExtTreeSet.mem_toList, ExtTreeSet.contains_iff_mem]

end ObjectSet

end ObjectFlow
