import ObjectFlow.Collection.Roster
import ObjectFlow.Fault
import ObjectFlow.PointsTo.Context
import ObjectFlow.PointsTo.ObjectSet

/-!
# Arenas

An arena numbers the contexts, objects and pointers that an analysis comes across, and holds for
each pointer the objects it may point to. Equal values get equal numbers, a number never changes its
meaning, and numbers are given in the order of arrival. An arena only grows. As those of a roster,
its numbers have no bound, so it describes arenas with numbers of 32 bits, which only a debug build
asserts to suffice, as long as there are at most 2³² things of each kind.
-/

namespace ObjectFlow

open Std

/-- The contexts, objects and pointers met so far, and what each pointer may point to. -/
structure Arena where
  contexts : Roster Context
  objects : Roster AbstractObject
  pointers : Roster Pointer
  /-- What each pointer may point to, by the number of the pointer. -/
  sets : Array ObjectSet
  size_sets : sets.size = pointers.size

namespace Arena

def empty : Arena := ⟨∅, ∅, ∅, #[], rfl⟩

instance : EmptyCollection Arena := ⟨empty⟩

instance : Inhabited Arena := ⟨∅⟩

/-! ## Numbering -/

/-- The number of a context, which is added if it is new. -/
def contextId (a : Arena) (c : Context) : ContextId × Arena :=
  let (i, contexts) := a.contexts.number c
  (⟨i⟩, { a with contexts })

/-- The number of an object, which is added if it is new. -/
def objectId (a : Arena) (o : AbstractObject) : ObjId × Arena :=
  let (i, objects) := a.objects.number o
  (⟨i⟩, { a with objects })

/-- Add a pointer, which points to nothing at first. -/
def addPointer (a : Arena) (p : Pointer) : Arena :=
  if h : a.pointers.contains p then a
  else
    { a with
      pointers := a.pointers.insert p
      sets := a.sets.push ∅
      size_sets := by simp [Roster.size_insert, h, a.size_sets] }

/-- The number of a pointer, if it has one. -/
def pointerId? (a : Arena) (p : Pointer) : Option PointerId := (a.pointers.indexOf? p).map Id.mk

/-- The number of a pointer, which is added if it is new. -/
def pointerId (a : Arena) (p : Pointer) : PointerId × Arena :=
  ((a.pointerId? p).getD ⟨a.pointers.size⟩, a.addPointer p)

/-! ## Looking up -/

def context (a : Arena) (c : ContextId) : Except Fault Context :=
  orUnknown (a.contexts.get? c.index)

def object (a : Arena) (o : ObjId) : Except Fault AbstractObject :=
  orUnknown (a.objects.get? o.index)

def pointer (a : Arena) (p : PointerId) : Except Fault Pointer :=
  orUnknown (a.pointers.get? p.index)

/-- What the pointer with a given number may point to. -/
def pointsTo (a : Arena) (p : PointerId) : Except Fault ObjectSet :=
  orUnknown a.sets[p.index]?

/-- What a pointer may point to; nothing, as long as there is no such pointer. -/
def objectsOf (a : Arena) (p : PointerId) : ObjectSet := a.sets[p.index]?.getD ∅

/-- Let a pointer point to further objects. -/
def grow (a : Arena) (p : PointerId) (objects : ObjectSet) : Arena :=
  { a with
    sets := a.sets.modify p.index (· ∪ objects)
    size_sets := by simp [a.size_sets] }

/-! ## Listing -/

/-- The objects with their numbers, in ascending order. -/
def objectEntries (a : Arena) : List (ObjId × AbstractObject) :=
  a.objects.toList.zipIdx.map fun (o, i) => (⟨i⟩, o)

/-- The pointers with their numbers, in ascending order. -/
def pointerEntries (a : Arena) : List (PointerId × Pointer) :=
  a.pointers.toList.zipIdx.map fun (p, i) => (⟨i⟩, p)

/-- The pointers in their own order: variables by context and number, then fields of objects, fields
of classes, and arrays. -/
def sortedPointers (a : Arena) : List Pointer := (ExtTreeSet.ofList a.pointers.toList).toList

/-- How often a pointer may point to an object, over all pointers and objects. -/
def factCount (a : Arena) : Nat := a.sets.foldl (fun n s => n + s.size) 0

end Arena

end ObjectFlow
