import ObjectFlow.Order

/-!
# Rosters

A roster is a set that remembers in which order its members arrived. The first member has number 0,
the next one number 1, and a member keeps its number for good, so a roster also serves as a supply
of numbers for values that are compared by content. The numbers have no bound. Where numbers are
kept in 32 bits, and only a debug build asserts that they fit, a roster describes what is numbered
as long as there are at most 2³² members.

`toList_insert`, `indexOf?_eq_some_iff` and `nodup_toList` say all there is to know about a roster.
-/

namespace ObjectFlow

open Std

/-- Distinct values numbered in the order of their arrival. -/
structure Roster (α : Type) [Keyed α] where
  /-- The members in the order of their arrival. -/
  items : Array α
  /-- The number of each member. -/
  numbers : ExtTreeMap α Nat
  /-- Both fields tell the same story. -/
  numbers_iff : ∀ (a : α) (i : Nat), numbers[a]? = some i ↔ items[i]? = some a

namespace Roster

variable {α : Type} [Keyed α]

def empty : Roster α := ⟨#[], ∅, by simp⟩

instance : EmptyCollection (Roster α) := ⟨empty⟩

instance : Inhabited (Roster α) := ⟨empty⟩

/-- The members in the order of their arrival. -/
def toList (r : Roster α) : List α := r.items.toList

def size (r : Roster α) : Nat := r.items.size

/-- The number of a member. -/
def indexOf? (r : Roster α) (a : α) : Option Nat := r.numbers[a]?

/-- The member with a given number. -/
def get? (r : Roster α) (i : Nat) : Option α := r.items[i]?

def contains (r : Roster α) (a : α) : Bool := (r.indexOf? a).isSome

theorem numbers_push {r : Roster α} {a : α} (h : r.indexOf? a = none) (b : α) (i : Nat) :
    (r.numbers.insert a r.items.size)[b]? = some i ↔ (r.items.push a)[i]? = some b := by
  rw [ExtTreeMap.getElem?_insert, Array.getElem?_push]
  by_cases hab : compare a b = .eq
  · obtain rfl := LawfulEqOrd.eq_of_compare hab
    by_cases hi : i = r.items.size
    · simp [hi]
    · have : r.items[i]? ≠ some a := fun hc => by
        rw [← r.numbers_iff] at hc
        simp [indexOf?, hc] at h
      simp [hi, this, Ne.symm hi]
  · have hne : a ≠ b := fun hc => hab (hc ▸ ReflOrd.compare_self)
    by_cases hi : i = r.items.size
    · have : r.numbers[b]? ≠ some r.items.size := by simp [r.numbers_iff]
      simp [hab, hi, hne, this]
    · simp [hab, hi, r.numbers_iff]

/-- Add a value at the end, unless it is a member already. -/
def insert (r : Roster α) (a : α) : Roster α :=
  match h : r.indexOf? a with
  | some _ => r
  | none => ⟨r.items.push a, r.numbers.insert a r.items.size, numbers_push h⟩

/-- The number of a value, which is added at the end if it is new. -/
def number (r : Roster α) (a : α) : Nat × Roster α :=
  ((r.indexOf? a).getD r.size, r.insert a)

def insertMany (r : Roster α) (as : List α) : Roster α := as.foldl insert r

/-- The distinct values of a list, in the order of their first occurrence. -/
def ofList (as : List α) : Roster α := insertMany ∅ as

/-! ## What a roster holds -/

theorem indexOf?_eq_some_iff {r : Roster α} {a : α} {i : Nat} :
    r.indexOf? a = some i ↔ r.get? i = some a :=
  r.numbers_iff a i

theorem get?_eq_getElem? {r : Roster α} {i : Nat} : r.get? i = r.toList[i]? := by
  simp [get?, toList]

theorem contains_iff {r : Roster α} {a : α} : r.contains a = true ↔ a ∈ r.toList := by
  simp only [contains, Option.isSome_iff_exists, indexOf?_eq_some_iff, get?_eq_getElem?,
    List.mem_iff_getElem?]

theorem nodup_toList (r : Roster α) : r.toList.Nodup := by
  rw [List.nodup_iff_pairwise_ne, List.pairwise_iff_getElem]
  intro i j hi hj hij h
  have h₁ : r.get? i = some r.toList[i] := by rw [get?_eq_getElem?, List.getElem?_eq_getElem hi]
  have h₂ : r.get? j = some r.toList[i] := by
    rw [get?_eq_getElem?, List.getElem?_eq_getElem hj, h]
  rw [← indexOf?_eq_some_iff] at h₁ h₂
  have := Option.some.inj (h₁.symm.trans h₂)
  omega

@[simp] theorem toList_empty : (∅ : Roster α).toList = [] := rfl

theorem toList_insert (r : Roster α) (a : α) :
    (r.insert a).toList = if r.contains a then r.toList else r.toList ++ [a] := by
  unfold insert
  split
  · next h => simp [contains, h]
  · next h => simp [contains, h, toList]

theorem insert_of_contains {r : Roster α} {a : α} (h : r.contains a = true) : r.insert a = r := by
  unfold insert
  split
  · rfl
  · next h' => simp [contains, h'] at h

theorem size_insert (r : Roster α) (a : α) :
    (r.insert a).size = if r.contains a then r.size else r.size + 1 := by
  unfold insert
  split
  · next h => simp [contains, h]
  · next h => simp [contains, h, size]

@[simp] theorem mem_insert {r : Roster α} {a b : α} :
    b ∈ (r.insert a).toList ↔ b ∈ r.toList ∨ b = a := by
  rw [toList_insert]
  split
  · next h =>
    rw [contains_iff] at h
    exact ⟨Or.inl, fun hb => hb.elim id fun hb => hb ▸ h⟩
  · simp

end Roster

end ObjectFlow
