import ObjectFlow.Order

/-!
# Identifiers

Everything in a program and in an analysis is named by a number within its kind. The kind is part of
the type, so a number of a class is never taken for one of a method, and it decides how the
identifier is written.
-/

namespace ObjectFlow

/-- The kinds of things that are numbered. -/
inductive Kind
  | classes | fields | methods | vars | objects | contexts | pointers | vertices

/-- What an identifier of this kind starts with when it is written. -/
def Kind.mark : Kind → String
  | classes => "c"
  | fields => "f"
  | methods => "m"
  | vars => "v"
  | objects => "o"
  | contexts => "ctx"
  | pointers => "p"
  | vertices => ""

/-- The number of a thing within its kind. -/
structure Id (kind : Kind) where
  index : Nat
deriving DecidableEq, Repr, Inhabited

/-- A class or an interface. -/
abbrev ClassId := Id .classes
/-- A field, of an instance or of a class. -/
abbrev FieldId := Id .fields
/-- A method, concrete or abstract. -/
abbrev MethodId := Id .methods
/-- A local variable, which may be a parameter or the receiver. -/
abbrev VarId := Id .vars
/-- An abstract object. -/
abbrev ObjId := Id .objects
/-- A calling context. -/
abbrev ContextId := Id .contexts
/-- A place that holds references. -/
abbrev PointerId := Id .pointers
/-- A vertex of a graph of bare numbers. -/
abbrev Vertex := Id .vertices

instance {kind : Kind} : ToString (Id kind) := ⟨fun i => kind.mark ++ toString i.index⟩

/-- Identifiers are ordered by their numbers. -/
@[reducible] def Id.keyed {kind : Kind} : Keyed (Id kind) where
  key i := [i.index]
  key_injective {a b} h := by
    cases a; cases b
    simpa using h

instance : Keyed ClassId := Id.keyed
instance : Keyed FieldId := Id.keyed
instance : Keyed MethodId := Id.keyed
instance : Keyed VarId := Id.keyed
instance : Keyed ObjId := Id.keyed
instance : Keyed ContextId := Id.keyed
instance : Keyed PointerId := Id.keyed
instance : Keyed Vertex := Id.keyed

/-- The identifiers below a bound, in ascending order. -/
def Id.range (kind : Kind) (bound : Nat) : List (Id kind) := (List.range bound).map Id.mk

@[simp] theorem Id.mem_range {kind : Kind} {bound : Nat} {i : Id kind} :
    i ∈ Id.range kind bound ↔ i.index < bound := by
  obtain ⟨i⟩ := i
  simp [Id.range]

/-- A statement, named by its method and its position in the body. -/
structure StmtId where
  method : MethodId
  index : Nat
deriving DecidableEq, Repr, Inhabited

instance : ToString StmtId := ⟨fun s => s!"{s.method}[{s.index}]"⟩

instance : Keyed StmtId where
  key s := [s.method.index, s.index]
  key_injective {a b} h := by
    obtain ⟨⟨_⟩, _⟩ := a
    obtain ⟨⟨_⟩, _⟩ := b
    simpa using h

end ObjectFlow
