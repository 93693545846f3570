import Mathlib.Logic.Function.Basic
import Mathlib.Logic.Relation
import ObjectFlow.Program.Basic

/-!
# Running a program

This is what a program does when it runs, without any analysis. A machine has a stack of frames and
a store. The store holds objects, each tagged with the statement that allocated it and with its
type, and the values of fields and array elements. A step executes one statement of the topmost
frame.

Numbers are computed only where they matter, which is nowhere but in literals and array indices: a
binary operation may yield any number and a branch may be taken or not. So the machine can do at
least what a real one can.
-/

namespace ObjectFlow

/-- The positions at which control may be after a statement at a given position. -/
def Stmt.next (position : Nat) : Stmt → List Nat
  | .goto target => [target]
  | .branch _ _ _ target => [target, position + 1]
  | .switch _ cases default => cases.map (·.2) ++ [default]
  | .ret _ => []
  | _ => [position + 1]

namespace Execution

/-- What a variable, a field or an array element holds. -/
inductive Datum
  | null
  | num (n : Int32)
  /-- A reference to the object at an address. -/
  | ref (address : Nat)
deriving DecidableEq, Repr, Inhabited

/-- An object: the statement that allocated it, and its type. -/
structure Instance where
  site : StmtId
  ty : Ty
deriving DecidableEq, Repr, Inhabited

/-- A place in the store that holds a value. -/
inductive Slot
  | field (address : Nat) (f : FieldId)
  | static (f : FieldId)
  | element (address : Nat) (index : Int32)
deriving DecidableEq, Repr, Inhabited

/-- The values of local variables; `null` unless assigned. -/
abbrev Locals := VarId → Datum

/-- The objects by address, and what fields and array elements hold. -/
structure Store where
  objects : List Instance
  slots : Slot → Datum

/-- A frame: a method that runs. Below the topmost frame, the position is that of the call. -/
structure Activation where
  method : MethodId
  position : Nat
  locals : Locals

/-- The statement at which a frame is. -/
def Activation.site (f : Activation) : StmtId := ⟨f.method, f.position⟩

/-- The frames, the topmost one first, and the store that they share. -/
structure Machine where
  frames : List Activation
  store : Store

/-! ## Statements -/

/-- What a cast makes of a value: references stay, other values may be converted. -/
inductive Converts : Datum → Datum → Prop
  | same (x : Datum) : Converts x x
  | plain {x y} : (∀ a, x ≠ .ref a) → (∀ a, y ≠ .ref a) → Converts x y

/-- What a statement other than a call or a return does to local variables and the store. -/
inductive Performs (site : StmtId) : Stmt → Locals → Store → Locals → Store → Prop
  | alloc (lhs : VarId) (ty : Ty) (l : Locals) (h : Store) :
      Performs site (.alloc lhs ty) l h (Function.update l lhs (.ref h.objects.length))
        { h with objects := h.objects ++ [⟨site, ty⟩] }
  | copy (lhs rhs : VarId) (l : Locals) (h : Store) :
      Performs site (.copy lhs rhs) l h (Function.update l lhs (l rhs)) h
  | cast {lhs rhs ty l h x} : Converts (l rhs) x →
      Performs site (.cast lhs rhs ty) l h (Function.update l lhs x) h
  | literal (lhs : VarId) (value : Int32) (l : Locals) (h : Store) :
      Performs site (.literal lhs value) l h (Function.update l lhs (.num value)) h
  | binary (lhs : VarId) (op : BinaryOp) (left right : VarId) (n : Int32) (l : Locals) (h : Store) :
      Performs site (.binary lhs op left right) l h (Function.update l lhs (.num n)) h
  | loadStatic (lhs : VarId) (f : FieldId) (l : Locals) (h : Store) :
      Performs site (.loadField lhs ⟨none, f⟩) l h
        (Function.update l lhs (h.slots (.static f))) h
  | storeStatic (f : FieldId) (rhs : VarId) (l : Locals) (h : Store) :
      Performs site (.storeField ⟨none, f⟩ rhs) l h l
        { h with slots := Function.update h.slots (.static f) (l rhs) }
  | loadField {lhs x f l h a} : l x = .ref a →
      Performs site (.loadField lhs ⟨some x, f⟩) l h
        (Function.update l lhs (h.slots (.field a f))) h
  | storeField {x f rhs l h a} : l x = .ref a →
      Performs site (.storeField ⟨some x, f⟩ rhs) l h l
        { h with slots := Function.update h.slots (.field a f) (l rhs) }
  | loadArray {lhs x index l h a n} : l x = .ref a → l index = .num n →
      Performs site (.loadArray lhs x index) l h
        (Function.update l lhs (h.slots (.element a n))) h
  | storeArray {x index rhs l h a n} : l x = .ref a → l index = .num n →
      Performs site (.storeArray x index rhs) l h l
        { h with slots := Function.update h.slots (.element a n) (l rhs) }
  | branch (op : BinaryOp) (left right : VarId) (target : Nat) (l : Locals) (h : Store) :
      Performs site (.branch op left right target) l h l h
  | switch (on : VarId) (cases : List (Int32 × Nat)) (default : Nat) (l : Locals) (h : Store) :
      Performs site (.switch on cases default) l h l h
  | goto (target : Nat) (l : Locals) (h : Store) : Performs site (.goto target) l h l h
  | nop (l : Locals) (h : Store) : Performs site .nop l h l h

/-! ## Calls and returns -/

/-- The method that a call selects on a receiver of a given type: a special call by the class named
in the call, a virtual or interface call by the class of the receiver. -/
inductive Selects (p : Program) (call : Invoke) : Ty → MethodId → Prop
  | special {ty m} : call.kind = .special →
      p.hierarchy.dispatch call.target.owner call.target.subsignature = .ok (some m) →
      Selects p call ty m
  | virtual {c m} : call.kind = .virtual ∨ call.kind = .interface →
      p.hierarchy.dispatch c call.target.subsignature = .ok (some m) → Selects p call (.ref c) m

/-- The values of parameters, which are those of the arguments, over other values. -/
def bindParams (pairs : List (VarId × VarId)) (caller callee : Locals) : Locals :=
  pairs.foldl (fun l (arg, param) => Function.update l param (caller arg)) callee

/-- The locals of a method that is about to run. -/
def enter (call : Invoke) (d : MethodDecl) (caller : Locals) (receiver : Datum) : Locals :=
  bindParams (call.args.zip d.params) caller
    (match d.this with
      | some this => Function.update (fun _ => .null) this receiver
      | none => fun _ => .null)

/-- A frame returns, with or without a value. Running off the end of a body returns none. -/
inductive Returns (p : Program) (f : Activation) : Option Datum → Prop
  | ret {value} : p.stmt f.site = .ok (.ret value) → Returns p f (value.map f.locals)
  | runOff {method} : p.method f.method = .ok method → method.decl.body.size ≤ f.position →
      Returns p f none

/-- The locals of a caller after a return. -/
def receive (l : Locals) : Option VarId → Option Datum → Locals
  | some lhs, some x => Function.update l lhs x
  | _, _ => l

inductive Step (p : Program) : Machine → Machine → Prop
  | simple {f fs h st l h' n} : p.stmt f.site = .ok st → Performs f.site st f.locals h l h' →
      n ∈ st.next f.position → Step p ⟨f :: fs, h⟩ ⟨⟨f.method, n, l⟩ :: fs, h'⟩
  /-- A static call runs the method that the class named in the call declares. -/
  | staticCall {f fs h call m method} : p.stmt f.site = .ok (.invoke call) → call.kind = .static →
      p.hierarchy.declared call.target.owner call.target.subsignature = .ok (some m) →
      p.method m = .ok method →
      Step p ⟨f :: fs, h⟩ ⟨⟨m, 0, enter call method.decl f.locals .null⟩ :: f :: fs, h⟩
  | instanceCall {f fs h call x a object m method} : p.stmt f.site = .ok (.invoke call) →
      call.receiver = some x → f.locals x = .ref a → h.objects[a]? = some object →
      Selects p call object.ty m → p.method m = .ok method →
      Step p ⟨f :: fs, h⟩ ⟨⟨m, 0, enter call method.decl f.locals (.ref a)⟩ :: f :: fs, h⟩
  | leave {f g fs h x call} : Returns p f x → p.stmt g.site = .ok (.invoke call) →
      Step p ⟨f :: g :: fs, h⟩
        ⟨⟨g.method, g.position + 1, receive g.locals call.result x⟩ :: fs, h⟩
  /-- When the entry method returns the program has ended. -/
  | stop {f h x} : Returns p f x → Step p ⟨[f], h⟩ ⟨[], h⟩

/-- A machine that is about to run the entry method. There are no objects and no references yet. -/
inductive Starts (p : Program) : Machine → Prop
  | mk {l : Locals} {slots : Slot → Datum} : (∀ v a, l v ≠ .ref a) → (∀ c a, slots c ≠ .ref a) →
      Starts p ⟨[⟨p.entry, 0, l⟩], ⟨[], slots⟩⟩

/-- A machine that a program can come to in finitely many steps. -/
def Executes (p : Program) (m : Machine) : Prop :=
  ∃ first, Starts p first ∧ Relation.ReflTransGen (Step p) first m

end Execution

end ObjectFlow
