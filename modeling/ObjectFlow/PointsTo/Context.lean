import ObjectFlow.Collection.Recent
import ObjectFlow.Program.Ty

/-!
# Contexts, objects and pointers

The analysis runs each method once for each context in which it is called. A context is a short
history of calls, told by call sites, by receivers or by the classes that allocated the receivers.
Objects are told apart by the statement that allocates them and by a context, and a pointer is a
place that holds references to objects: a variable in a context, a field, or the elements of an
array.
-/

namespace ObjectFlow

/-- What a context remembers of a call. -/
inductive ContextElement
  /-- The call was made here. -/
  | site (s : StmtId)
  /-- The call was made on this object. -/
  | object (o : ObjId)
  /-- The call was made on an object allocated by a method of this class. -/
  | type (c : ClassId)
deriving DecidableEq, Repr, Inhabited

namespace ContextElement

def text : ContextElement → String
  | site s => toString s
  | object o => toString o
  | type c => toString c

instance : ToString ContextElement := ⟨text⟩

instance : Keyed ContextElement where
  key
    | site s => 0 :: Keyed.key s
    | object o => 1 :: Keyed.key o
    | type c => 2 :: Keyed.key c
  key_injective {a b} h := by
    cases a <;> cases b <;> simp only [List.cons.injEq, true_and, reduceCtorEq, false_and,
      Nat.reduceEqDiff] at h <;> rw [Keyed.key_injective h]

end ContextElement

/-- The newest calls that led to a method. -/
abbrev Context := Recent ContextElement

/-- All objects that a statement allocates while its method runs in contexts that agree on
`context`. -/
structure AbstractObject where
  /-- The statement that allocates the objects. -/
  site : StmtId
  ty : Ty
  /-- The class of the method that allocates them. -/
  container : ClassId
  /-- The heap context. -/
  context : ContextId
deriving DecidableEq, Repr, Inhabited

namespace AbstractObject

/-- The class of which the objects are instances. -/
def class? (o : AbstractObject) : Option ClassId := o.ty.class?

instance : ToString AbstractObject := ⟨fun o => s!"new {o.ty}@{o.site}"⟩

instance : Keyed AbstractObject where
  key o := Keyed.key (o.site, o.container, o.context, o.ty)
  key_injective {a b} h := by
    have h := Keyed.key_injective h
    cases a; cases b
    simp_all

end AbstractObject

/-- A place that holds references. -/
inductive Pointer
  /-- A variable of a method that runs in a context. -/
  | var (c : ContextId) (v : VarId)
  /-- A field of an object. -/
  | instanceField (o : ObjId) (f : FieldId)
  /-- A field of a class. -/
  | staticField (f : FieldId)
  /-- The elements of an array, all in one. -/
  | elements (o : ObjId)
deriving DecidableEq, Repr, Inhabited

namespace Pointer

def text : Pointer → String
  | var c v => s!"{c}:{v}"
  | instanceField o f => s!"{o}.{f}"
  | staticField f => toString f
  | elements o => s!"{o}[*]"

instance : ToString Pointer := ⟨text⟩

/-- Variables come first, by context and number, then fields of objects, fields of classes, and
arrays. -/
instance : Keyed Pointer where
  key
    | var c v => [0, c.index, v.index]
    | instanceField o f => [1, o.index, f.index]
    | staticField f => [2, f.index]
    | elements o => [3, o.index]
  key_injective {a b} h := by
    rcases a with ⟨⟨_⟩, ⟨_⟩⟩ | ⟨⟨_⟩, ⟨_⟩⟩ | ⟨⟨_⟩⟩ | ⟨⟨_⟩⟩ <;>
      rcases b with ⟨⟨_⟩, ⟨_⟩⟩ | ⟨⟨_⟩, ⟨_⟩⟩ | ⟨⟨_⟩⟩ | ⟨⟨_⟩⟩ <;> simp_all

end Pointer

/-- A method that runs in a context. -/
abbrev ContextMethod := ContextId × MethodId

/-- A statement of a method that runs in a context. -/
abbrev ContextSite := ContextId × StmtId

end ObjectFlow
