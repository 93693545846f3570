import ObjectFlow.Document.Json

/-!
# Decoders

A decoder takes a value off a document. It is given the number of levels that it may still descend
into and refuses a document that would need more; what it passes over without looking does not
count.

A record is written as an object with its fields as members, in any order and among any others, or
as an array of its fields in their order. A choice is written as an object with one member, named
for the alternative, or as the bare name if the alternative holds nothing.
-/

namespace ObjectFlow

/-- A reading of documents that descends at most the given number of levels. -/
abbrev Decoder (α : Type) := (room : Nat) → Json → Option α

namespace Decoder

variable {α β : Type}

/-- How deep documents may be nested. -/
def maxNesting : Nat := 127

def bool : Decoder Bool
  | _, .bool b => some b
  | _, _ => none

def string : Decoder String
  | _, .str s => some s
  | _, _ => none

/-- An integer from `low` up to but not including `high`. -/
def intBetween (low high : Int) : Decoder Int
  | _, .int n => if low ≤ n ∧ n < high then some n else none
  | _, _ => none

/-- A natural number of the given number of bits. -/
def natOfBits (bits : Nat) : Decoder Nat := fun room j =>
  (intBetween 0 ((1 <<< bits : Nat) : Int) room j).map Int.toNat

/-- A signed number of 32 bits. -/
def int32 : Decoder Int32 := fun room j =>
  (intBetween (-0x80000000) 0x80000000 room j).map Int32.ofInt

/-- A value that may be absent, which is written as null. -/
def option (d : Decoder α) : Decoder (Option α)
  | _, .null => some none
  | room, j => (d room j).map some

def list (d : Decoder α) : Decoder (List α)
  | room + 1, .arr items => items.mapM (d room)
  | _, _ => none

def pair (d : Decoder α) (e : Decoder β) : Decoder (α × β)
  | room + 1, .arr [j, k] => do return (← d room j, ← e room k)
  | _, _ => none

/-! ## Records -/

/-- The fields of a record that are present. -/
structure Fields where
  /-- Whether the fields were given by name. -/
  named : Bool
  present : List (String × Json)
  /-- How deep their values may be nested. -/
  room : Nat

/-- The fields of a record, given by name without repetition, or in their order from the first one
on. -/
def fields? (names : List String) : Decoder Fields
  | room + 1, .obj members =>
    let known := members.filter fun m => m.1 ∈ names
    if (known.map (·.1)).Nodup then some ⟨true, known, room⟩ else none
  | room + 1, .arr items =>
    if items.length ≤ names.length then some ⟨false, names.zip items, room⟩ else none
  | _, _ => none

namespace Fields

def required (f : Fields) (name : String) (d : Decoder α) : Option α :=
  (f.present.lookup name).bind (d f.room)

/-- A field with a value that stands in when the field is missing. -/
def withDefault (f : Fields) (name : String) (d : Decoder α) (default : α) : Option α :=
  match f.present.lookup name with
  | some j => d f.room j
  | none => some default

/-- A field whose value may be absent. Where fields are given by name, the field may be missing. -/
def optional (f : Fields) (name : String) (d : Decoder α) : Option (Option α) :=
  match f.present.lookup name with
  | some j => option d f.room j
  | none => if f.named then some none else none

end Fields

def record (names : List String) (build : Fields → Option α) : Decoder α := fun room j =>
  (fields? names room j).bind build

/-! ## Choices -/

/-- The alternative that is chosen, what it holds, and how deep that may be nested. -/
def choice? : Decoder (String × Option Json × Nat)
  | room, .str name => some (name, none, room)
  | room + 1, .obj [(name, j)] => some (name, some j, room)
  | _, _ => none

/-- A choice between alternatives that hold nothing. -/
def oneOf (named : String → Option α) : Decoder α := fun room j =>
  match choice? room j with
  | some (name, none, _) | some (name, some .null, _) => named name
  | _ => none

end Decoder

end ObjectFlow
