import ObjectFlow.Collection.Reach
import ObjectFlow.Fault
import ObjectFlow.Program.WellFormed

/-!
# The class hierarchy and dispatch

A call finds its method in one of three ways.

* A static call goes to the method that the class named in the call declares.
* A special call dispatches on the class named in the call.
* A virtual or interface call dispatches on the class of the receiver. Where no receiver is known,
  every subtype of the class named in the call may be that class.

Dispatch on a class takes the nearest concrete method on its superclass chain. There may be none,
and that is no error.
-/

namespace ObjectFlow

open Std

/-- What the hierarchy knows about one class. -/
structure ClassEntry where
  superclass : Option ClassId
  /-- The interfaces it implements or, for an interface, extends. -/
  interfaces : List ClassId
  isInterface : Bool
  /-- The class itself, then its superclasses upward. -/
  lineage : List ClassId
  /-- The methods that the class declares, by subsignature. -/
  declared : List (String × MethodId)
  /-- The classes that name it as their superclass. -/
  subclasses : List ClassId
  /-- The classes that implement it. -/
  implementors : List ClassId
  /-- The interfaces that extend it. -/
  subinterfaces : List ClassId
deriving Repr, Inhabited

/-- The classes of a program with their links in both directions. -/
structure Hierarchy where
  classes : Array ClassEntry
  /-- The methods without a body. -/
  abstractMethods : ExtTreeSet MethodId

namespace Hierarchy

/-- The classes of one sort (interfaces or not) that name `c` among their interfaces, once for each
time that they name it. -/
def naming (m : Model) (areInterfaces : Bool) (c : ClassId) : List ClassId :=
  m.classEntries.flatMap fun (id, d) =>
    if d.isInterface = areInterfaces then (d.interfaces.filter (· = c)).map fun _ => id else []

def ofModel (m : Model) : Hierarchy where
  classes := (m.classEntries.map fun (c, d) =>
    { superclass := d.superclass
      interfaces := d.interfaces
      isInterface := d.isInterface
      lineage := (m.lineage? m.classes.size c).getD [c]
      declared := m.methodEntries.filterMap fun (id, e) =>
        if e.owner = c then some (e.subsignature, id) else none
      subclasses := m.classEntries.filterMap fun (id, e) =>
        if e.superclass = some c then some id else none
      implementors := naming m false c
      subinterfaces := naming m true c : ClassEntry }).toArray
  abstractMethods := ExtTreeSet.ofList (m.methodEntries.filterMap fun (id, d) =>
    if d.isAbstract then some id else none)

def classIds (h : Hierarchy) : List ClassId := Id.range .classes h.classes.size

/-- What is known about a class. -/
def entry (h : Hierarchy) (c : ClassId) : Except Fault ClassEntry :=
  orUnknown h.classes[c.index]?

def superclass (h : Hierarchy) (c : ClassId) : Except Fault (Option ClassId) := do
  return (← h.entry c).superclass

def isInterface (h : Hierarchy) (c : ClassId) : Except Fault Bool := do
  return (← h.entry c).isInterface

/-- Whether a method has no body. -/
def isAbstractMethod (h : Hierarchy) (m : MethodId) : Bool := h.abstractMethods.contains m

/-- The method that a class declares under a subsignature. -/
def declared (h : Hierarchy) (c : ClassId) (subsignature : String) :
    Except Fault (Option MethodId) := do
  return (← h.entry c).declared.lookup subsignature

/-- Subclasses of a class; implementors, then subinterfaces, of an interface. -/
def directSubtypes (h : Hierarchy) (c : ClassId) : Except Fault (List ClassId) := do
  let e ← h.entry c
  return if e.isInterface then e.implementors ++ e.subinterfaces else e.subclasses

/-- The superclass and the interfaces of a class. -/
def directSupertypes (h : Hierarchy) (c : ClassId) : Except Fault (List ClassId) := do
  let e ← h.entry c
  return e.superclass.toList ++ e.interfaces

def supertypes (h : Hierarchy) (c : ClassId) : Except Fault (Roster ClassId) := do
  let _ ← h.entry c
  reach h.classIds h.directSupertypes c

def subtypes (h : Hierarchy) (c : ClassId) : Except Fault (Roster ClassId) := do
  let _ ← h.entry c
  reach h.classIds h.directSubtypes c

/-- Subtyping through superclasses and interfaces; every class is a subtype of itself. -/
def isSubtype (h : Hierarchy) (sub sup : ClassId) : Except Fault Bool := do
  if sub = sup then return true
  return (← h.supertypes sub).contains sup

/-- The concrete method that a class itself declares under a subsignature. -/
def concrete? (h : Hierarchy) (subsignature : String) (c : ClassId) : Option MethodId :=
  (h.classes[c.index]?.bind (·.declared.lookup subsignature)).filter (!h.isAbstractMethod ·)

/-- The nearest concrete method under a subsignature on the superclass chain of a class. -/
def dispatch (h : Hierarchy) (c : ClassId) (subsignature : String) :
    Except Fault (Option MethodId) := do
  return (← h.entry c).lineage.findSome? (h.concrete? subsignature)

/-- The methods that dispatch finds on a class and its subtypes, in ascending order. -/
def virtualTargets (h : Hierarchy) (c : ClassId) (subsignature : String) :
    Except Fault (List MethodId) := do
  let found ← (← h.subtypes c).toList.mapM (h.dispatch · subsignature)
  return (ExtTreeSet.ofList (found.filterMap id)).toList

/-- The callee of a call whose receiver, if it has one, is of the given class. -/
def callee (h : Hierarchy) (receiver : Option ClassId) (call : Invoke) :
    Except Fault (Option MethodId) :=
  match call.kind, receiver with
  | .static, _ => h.declared call.target.owner call.target.subsignature
  | .special, _ => h.dispatch call.target.owner call.target.subsignature
  | .virtual, some c | .interface, some c => h.dispatch c call.target.subsignature
  | .virtual, none | .interface, none => .ok none

/-- The possible callees of a call whatever its receiver, in ascending order. -/
def possibleCallees (h : Hierarchy) (call : Invoke) : Except Fault (List MethodId) :=
  match call.kind with
  | .static | .special => do return (← h.callee none call).toList
  | .virtual | .interface => h.virtualTargets call.target.owner call.target.subsignature

end Hierarchy

end ObjectFlow
