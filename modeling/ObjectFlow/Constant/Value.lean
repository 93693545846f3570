import ObjectFlow.Program.Statement

/-!
# Values of numeric variables

What is known about a number: nothing has been assigned on any path so far, it is one constant, or
it is not a constant. Values from several paths meet: an undefined one gives way to any other, and
two different constants leave no constant.
-/

namespace ObjectFlow

/-- What is known about a number. -/
inductive Value
  /-- Nothing is assigned on any path. -/
  | unset
  | const (n : Int32)
  /-- Not a constant. -/
  | nac
deriving DecidableEq, Repr, Inhabited

namespace Value

instance : ToString Value where
  toString
    | unset => "UNDEF"
    | const n => toString n.toInt
    | nac => "NAC"

instance : Keyed Value where
  key
    | unset => [0]
    | const n => [1, n.toBitVec.toNat]
    | nac => [2]
  key_injective {a b} h := by
    cases a <;> cases b <;> simp_all [← Int32.toBitVec_inj, ← BitVec.toNat_inj]

def constant? : Value → Option Int32
  | const n => some n
  | _ => none

/-- Two values met. This stands for the join of a third-party lattice, as the values document it: a
flat lattice over the numbers, with `unset` as its bottom and `nac` as its top. -/
def meet : Value → Value → Value
  | unset, b => b
  | a, unset => a
  | const m, const n => if m = n then const m else nac
  | nac, _ | _, nac => nac

/-- Whether an array index with one value may be equal to one with the other. -/
def mayAlias : Value → Value → Bool
  | unset, _ | _, unset => false
  | const m, const n => m = n
  | nac, _ | _, nac => true

/-- The order of values by how little is known: undefined, then constants, which are not comparable
with each other, then no constant. -/
def compare? : Value → Value → Option Ordering
  | unset, unset | nac, nac => some .eq
  | unset, _ | _, nac => some .lt
  | _, unset | nac, _ => some .gt
  | const m, const n => if m = n then some .eq else none

end Value

namespace BinaryOp

/-- The result of an operator on two numbers. Arithmetic wraps around at 32 bits, division goes
toward zero, and only the five lowest bits of a shift distance count. -/
def apply (op : BinaryOp) (a b : Int32) : Int32 :=
  let truth (p : Bool) : Int32 := if p then 1 else 0
  match op with
  | add => a + b
  | sub => a - b
  | mul => a * b
  | div => a / b
  | rem => a % b
  | and => a &&& b
  | or => a ||| b
  | xor => a ^^^ b
  | shl => a <<< b
  | shr => a >>> b
  | ushr => (a.toUInt32 >>> b.toUInt32).toInt32
  | eq => truth (a = b)
  | ne => truth (a ≠ b)
  | lt => truth (a < b)
  | gt => truth (a > b)
  | le => truth (a ≤ b)
  | ge => truth (a ≥ b)

/-- The result of an operator on two values. Division by the constant zero has no result. -/
def evaluate (op : BinaryOp) (a b : Value) : Value :=
  if op.mayFault && b = .const 0 then .unset
  else
    match a, b with
    | .const m, .const n => .const (op.apply m n)
    | .nac, _ | _, .nac => .nac
    | _, _ => .unset

end BinaryOp

end ObjectFlow
