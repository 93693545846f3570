import ObjectFlow.Program.Id

/-!
# Faults

A fault is a breach of what a computation takes for granted: an identifier that names nothing, a
question asked too early, a table that lacks an entry it should have. None arises from a program
that has passed its checks.
-/

namespace ObjectFlow

/-- What can be found broken while an analysis runs. -/
inductive Fault
  /-- An identifier names nothing. -/
  | unknownId
  /-- The points-to sets were checked while work was pending. -/
  | pendingWork
  /-- A points-to set is not included in that of a successor. -/
  | flowMissing (source target : String)
  /-- The call graph lacks an edge from a call site to a method. -/
  | callEdgeMissing (site : StmtId) (callee : String)
  /-- A static call has no callee. -/
  | unresolvedCall (site : StmtId)
  /-- A call edge starts at a statement that is not a call. -/
  | edgeWithoutCall (site : StmtId)
  /-- A call site is not a call. -/
  | siteWithoutCall (site : StmtId)
  /-- A pointer is queued although nothing is pending for it. -/
  | nothingPending (p : PointerId)
  /-- A data flow visits a node outside of its graph. -/
  | outsideGraph
  /-- A data flow visits a node outside of its interprocedural graph. -/
  | outsideProgramGraph
  /-- A call edge does not lead from a statement to an entry. -/
  | malformedCallEdge (source target : String)
  /-- A call edge of a data flow starts at a statement that is not a call. -/
  | flowWithoutCall (site : StmtId)
  /-- A bounded computation used up its bound. -/
  | boundReached
deriving DecidableEq, Repr, Inhabited

namespace Fault

/-- The report on a fault; a bare unknown identifier has none. -/
def message? : Fault → Option String
  | unknownId => none
  | pendingWork => some "Bug! Checking before fixpoint"
  | flowMissing source target => some
      s!"Bug! Points-to set of {source} not included in that of its successor {target}"
  | callEdgeMissing site callee => some s!"Bug! Missing call edge from {site} to {callee}"
  | unresolvedCall site => some s!"Bug! Unresolved static call at {site}"
  | edgeWithoutCall site => some s!"Bug! Call edge from a non-call statement: {site}"
  | siteWithoutCall site => some s!"Bug! Call site {site} is not an invocation"
  | nothingPending p => some s!"Bug! Queued pointer without pending objects: {p}"
  | outsideGraph => some "Bug! Dataflow node outside of the graph"
  | outsideProgramGraph => some "Bug! Dataflow node outside of the ICFG"
  | malformedCallEdge source target => some s!"Bug! Malformed call edge {source} -> {target}"
  | flowWithoutCall site => some s!"Bug! Call edge from non-call {site}"
  | boundReached => some "Bug! Bound reached"

end Fault

/-- The entry of a table, or a fault if there is none. -/
def orUnknown {α : Type} : Option α → Except Fault α
  | some a => .ok a
  | none => .error .unknownId

@[simp] theorem orUnknown_some {α : Type} (a : α) : orUnknown (some a) = .ok a := rfl

theorem orUnknown_eq_ok {α : Type} {o : Option α} {a : α} : orUnknown o = .ok a ↔ o = some a := by
  cases o <;> simp [orUnknown]

end ObjectFlow
