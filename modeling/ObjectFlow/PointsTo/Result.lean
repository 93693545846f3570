import ObjectFlow.Collection.Grouping
import ObjectFlow.PointsTo.Solver

/-!
# What a points-to analysis has found

A result answers questions about variables in all their contexts together, and about heap locations.
Of what the analysis has never come across nothing is known, so questions about it have empty
answers.
-/

namespace ObjectFlow.PointsTo

open Std

/-- What is chosen when an analysis is run. -/
structure Options where
  sensitivity : Sensitivity := .insensitive
  discipline : Discipline := .fifo
  /-- Check the fixpoint before it is used. -/
  check : Bool := false
  /-- Report the size of what was found. -/
  metrics : Bool := false
deriving Inhabited

/-- A finished analysis. -/
structure Result where
  arena : Arena
  /-- The call graph with contexts. -/
  calls : CallGraph ContextSite ContextMethod
  /-- The call graph without contexts. -/
  plainCalls : CallGraph StmtId MethodId
  /-- The contexts of each variable, with the pointer there. -/
  varPointers : ExtTreeMap VarId (List (ContextId × PointerId))
  /-- The size of what was found, if it was asked for. -/
  metrics : Option Metrics
deriving Inhabited

/-- Context, variable and number of a pointer that is a variable. -/
def variableEntry : PointerId × Pointer → Option (VarId × ContextId × PointerId)
  | (id, .var c v) => some (v, c, id)
  | (_, .instanceField ..) | (_, .staticField _) | (_, .elements _) => none

/-- The result of an analysis that has ended. -/
def Result.ofState (s : State) (metrics : Bool) : Result where
  arena := s.arena
  calls := s.calls
  plainCalls := s.calls.project (·.2) (·.2)
  varPointers :=
    (groupBy (·.1) (s.arena.pointerEntries.filterMap variableEntry)).map fun _ g => g.map (·.2)
  metrics := if metrics then some s.metrics else none

namespace Result

/-- What a pointer may point to. -/
def objectsAt (r : Result) (p : Pointer) : ObjectSet :=
  ((r.arena.pointerId? p).map r.arena.objectsOf).getD ∅

/-- What a variable may point to, in any context. -/
def pointsTo (r : Result) (v : VarId) : ObjectSet :=
  (r.varPointers.getD v []).foldl (fun s (_, p) => s ∪ r.arena.objectsOf p) ∅

/-- The contexts in which a variable has been seen, in ascending order. -/
def contextsOf (r : Result) (v : VarId) : List ContextId :=
  (ExtTreeSet.ofList ((r.varPointers.getD v []).map (·.1))).toList

/-- The variables that have been seen, in ascending order. -/
def vars (r : Result) : List VarId := r.varPointers.keys

/-- Whether two variables may point to the same object. -/
def mayAlias (r : Result) (v w : VarId) : Bool := !(r.pointsTo v ∩ r.pointsTo w).isEmpty

/-- The objects that a statement allocates. -/
def objectsFrom (r : Result) (site : StmtId) : ObjectSet :=
  ExtTreeSet.ofList ((r.arena.objectEntries.filter (·.2.site = site)).map (·.1))

/-- What a field may point to in any of some objects. -/
def fieldOf (r : Result) (objects : ObjectSet) (f : FieldId) : ObjectSet :=
  objects.foldl (fun s o => s ∪ r.objectsAt (.instanceField o f)) ∅

/-- What the elements of any of some arrays may point to. -/
def elementsOf (r : Result) (objects : ObjectSet) : ObjectSet :=
  objects.foldl (fun s o => s ∪ r.objectsAt (.elements o)) ∅

end Result

/-- Analyse a program, unless that takes more than `limit` steps. -/
def analyze (p : Program) (o : Options) (limit : Nat) : Except Fault Result := do
  let s ← (State.initial o.sensitivity o.discipline).solve p o.sensitivity limit
  if o.check then s.check p
  return .ofState s o.metrics

end ObjectFlow.PointsTo
