import Std.Data.ExtTreeMap
import Std.Data.ExtTreeSet

/-!
# Types ordered by a list of numbers

A `Keyed` type has a list of numbers for each of its values, and the list determines the value.
Comparing lists lexicographically then orders the type, and the order is lawful, so a keyed type can
be the key of a tree map. The maps and sets are the extensional ones: two of them are equal as soon
as they hold the same entries.
-/

namespace ObjectFlow

open Std

/-- Values named by lists of numbers, one list for each value. -/
class Keyed (α : Type) where
  /-- The numbers by which values are compared. -/
  key : α → List Nat
  /-- No two values share a key. -/
  key_injective : ∀ {a b : α}, key a = key b → a = b

namespace Keyed

variable {α β : Type}

instance [Keyed α] : Ord α := ⟨fun a b => compare (key a) (key b)⟩

instance [Keyed α] : TransOrd α where
  eq_swap {a b} := OrientedOrd.eq_swap (α := List Nat) (a := key a) (b := key b)
  isLE_trans {a b c} := TransOrd.isLE_trans (α := List Nat) (a := key a) (b := key b) (c := key c)

instance [Keyed α] : LawfulEqOrd α where
  compare_self {a} := ReflOrd.compare_self (α := List Nat) (a := key a)
  eq_of_compare {a b} h :=
    key_injective (LawfulEqOrd.eq_of_compare (α := List Nat) (a := key a) (b := key b) h)

/-- A pair is ordered by its first part, then by its second. -/
instance [Keyed α] [Keyed β] : Keyed (α × β) where
  key p := (key p.1).length :: (key p.1 ++ key p.2)
  key_injective {p q} h := by
    obtain ⟨hl, h⟩ := List.cons.inj h
    obtain ⟨h₁, h₂⟩ := List.append_inj h hl
    exact Prod.ext (key_injective h₁) (key_injective h₂)

/-- The keys of the members, each after its length. -/
def keys [Keyed α] (as : List α) : List Nat :=
  as.flatMap fun a => (key a).length :: key a

theorem keys_injective [Keyed α] : ∀ {as bs : List α}, keys as = keys bs → as = bs
  | [], [], _ => rfl
  | [], b :: bs, h => by simp [keys] at h
  | a :: as, [], h => by simp [keys] at h
  | a :: as, b :: bs, h => by
    simp only [keys, List.flatMap_cons, List.cons_append, List.cons.injEq] at h
    obtain ⟨h₁, h₂⟩ := List.append_inj h.2 h.1
    rw [key_injective h₁, keys_injective h₂]

instance [Keyed α] : Keyed (List α) := ⟨keys, keys_injective⟩

end Keyed

end ObjectFlow
