import ObjectFlow.Program.Ty

/-!
# Statements

Bodies of methods are sequences of simple statements over variables. Branches name their target by
its position in the body.
-/

namespace ObjectFlow

/-- Operators with two operands of 32 bits. -/
inductive BinaryOp
  | add | sub | mul | div | rem | and | or | xor | shl | shr | ushr | eq | ne | lt | gt | le | ge
deriving DecidableEq, Repr, Inhabited

namespace BinaryOp

def all : List BinaryOp :=
  [add, sub, mul, div, rem, and, or, xor, shl, shr, ushr, eq, ne, lt, gt, le, ge]

def text : BinaryOp → String
  | add => "add"
  | sub => "sub"
  | mul => "mul"
  | div => "div"
  | rem => "rem"
  | and => "and"
  | or => "or"
  | xor => "xor"
  | shl => "shl"
  | shr => "shr"
  | ushr => "ushr"
  | eq => "eq"
  | ne => "ne"
  | lt => "lt"
  | gt => "gt"
  | le => "le"
  | ge => "ge"

/-- Whether the operator has no result on some operands. -/
def mayFault : BinaryOp → Bool
  | div | rem => true
  | _ => false

/-- Whether the operator compares, and so may stand in a branch. -/
def isComparison : BinaryOp → Bool
  | eq | ne | lt | gt | le | ge => true
  | _ => false

end BinaryOp

/-- The ways to call a method. -/
inductive CallKind
  /-- Without a receiver. -/
  | static
  /-- On the class named in the call: constructors, private methods, calls to a superclass. -/
  | special
  /-- On the class of the receiver. -/
  | virtual
  /-- On the class of the receiver, through an interface. -/
  | interface
deriving DecidableEq, Repr, Inhabited

namespace CallKind

def all : List CallKind := [static, special, virtual, interface]

def text : CallKind → String
  | static => "static"
  | special => "special"
  | virtual => "virtual"
  | interface => "interface"

instance : ToString CallKind := ⟨text⟩

/-- The place of a call kind among the four. -/
def number : CallKind → Nat
  | static => 0
  | special => 1
  | virtual => 2
  | interface => 3

instance : Keyed CallKind where
  key k := [k.number]
  key_injective {a b} h := by cases a <;> cases b <;> simp_all [number]

end CallKind

/-- The method named in a call: a class and a subsignature, which is name and parameter types. -/
structure MethodRef where
  owner : ClassId
  subsignature : String
deriving DecidableEq, Repr, Inhabited

/-- A field, of the object in `base` or, without a base, of a class. -/
structure FieldAccess where
  base : Option VarId
  field : FieldId
deriving DecidableEq, Repr, Inhabited

structure Invoke where
  kind : CallKind
  /-- The variable that takes the result. -/
  result : Option VarId
  receiver : Option VarId
  target : MethodRef
  args : List VarId
deriving DecidableEq, Repr, Inhabited

inductive Stmt
  | alloc (lhs : VarId) (ty : Ty)
  | copy (lhs rhs : VarId)
  | cast (lhs rhs : VarId) (ty : Ty)
  | literal (lhs : VarId) (value : Int32)
  | binary (lhs : VarId) (op : BinaryOp) (left right : VarId)
  | loadField (lhs : VarId) (access : FieldAccess)
  | storeField (access : FieldAccess) (rhs : VarId)
  | loadArray (lhs base index : VarId)
  | storeArray (base index rhs : VarId)
  | invoke (call : Invoke)
  | branch (op : BinaryOp) (left right : VarId) (target : Nat)
  | switch (on : VarId) (cases : List (Int32 × Nat)) (default : Nat)
  | goto (target : Nat)
  | ret (value : Option VarId)
  | nop
deriving DecidableEq, Repr, Inhabited

namespace Stmt

/-- The variable that a statement assigns. -/
def defined : Stmt → Option VarId
  | alloc lhs _ | copy lhs _ | cast lhs _ _ | literal lhs _ | binary lhs _ _ _ | loadField lhs _
  | loadArray lhs _ _ => some lhs
  | invoke call => call.result
  | _ => none

/-- The variables that a statement reads, in the order in which they are written. -/
def used : Stmt → List VarId
  | copy _ rhs | cast _ rhs _ => [rhs]
  | binary _ _ left right | branch _ left right _ => [left, right]
  | loadField _ access => access.base.toList
  | storeField access rhs => access.base.toList ++ [rhs]
  | loadArray _ base index => [base, index]
  | storeArray base index rhs => [base, index, rhs]
  | invoke call => call.receiver.toList ++ call.args
  | switch on _ _ => [on]
  | ret value => value.toList
  | alloc .. | literal .. | goto _ | nop => []

/-- Whether control may go on to the next statement. -/
def fallsThrough : Stmt → Bool
  | goto _ | switch .. | ret _ => false
  | _ => true

def call? : Stmt → Option Invoke
  | invoke call => some call
  | _ => none

end Stmt

/-- Whether a call is made without a receiver. -/
def Invoke.isStatic (call : Invoke) : Bool := call.kind = .static

end ObjectFlow
