import ObjectFlow.Program.Id

/-!
# Types
-/

namespace ObjectFlow

/-- The types of fields, variables, results and allocated objects. -/
inductive Ty
  | int | boolean | byte | short | char | long | float | double
  /-- Instances of a class or of what implements an interface. -/
  | ref (c : ClassId)
  | array (element : Ty)
  | null | void
deriving DecidableEq, Repr, Inhabited

namespace Ty

def text : Ty → String
  | int => "int"
  | boolean => "boolean"
  | byte => "byte"
  | short => "short"
  | char => "char"
  | long => "long"
  | float => "float"
  | double => "double"
  | ref c => toString c
  | array element => element.text ++ "[]"
  | null => "null"
  | void => "void"

instance : ToString Ty := ⟨text⟩

/-- Whether a variable of this type holds a number of at most 32 bits. -/
def holdsInt : Ty → Bool
  | int | boolean | byte | short | char => true
  | _ => false

/-- The class of an instance type. -/
def class? : Ty → Option ClassId
  | ref c => some c
  | _ => none

/-- The numbers that spell a type: each constructor has its own first number. -/
def spelling : Ty → List Nat
  | int => [0]
  | boolean => [1]
  | byte => [2]
  | short => [3]
  | char => [4]
  | long => [5]
  | float => [6]
  | double => [7]
  | null => [8]
  | void => [9]
  | ref c => [10, c.index]
  | array element => 11 :: element.spelling

theorem spelling_injective : ∀ {a b : Ty}, a.spelling = b.spelling → a = b
  | array a, b, h => by
    cases b <;> simp [spelling] at h
    rw [spelling_injective h]
  | ref ⟨c⟩, b, h => by
    cases b <;> simp [spelling] at h
    rw [h]
  | int, b, h => by cases b <;> simp_all [spelling]
  | boolean, b, h => by cases b <;> simp_all [spelling]
  | byte, b, h => by cases b <;> simp_all [spelling]
  | short, b, h => by cases b <;> simp_all [spelling]
  | char, b, h => by cases b <;> simp_all [spelling]
  | long, b, h => by cases b <;> simp_all [spelling]
  | float, b, h => by cases b <;> simp_all [spelling]
  | double, b, h => by cases b <;> simp_all [spelling]
  | null, b, h => by cases b <;> simp_all [spelling]
  | void, b, h => by cases b <;> simp_all [spelling]

instance : Keyed Ty := ⟨spelling, spelling_injective⟩

end Ty

end ObjectFlow
