import ObjectFlow.CallGraph.Basic
import ObjectFlow.PointsTo.Arena
import ObjectFlow.PointsTo.FlowEdges
import ObjectFlow.PointsTo.Pending
import ObjectFlow.PointsTo.Sensitivity

/-!
# The state of a points-to analysis

The state holds the pointers with the objects they are known to point to, the flow between pointers,
the objects still on their way, and the call graph found so far. Whatever is done to it, a target of
the flow is either known to point to what its source points to or the missing objects are on their
way: `addFlow` sends what the source has, and `absorb` sends what has just arrived.
-/

namespace ObjectFlow.PointsTo

/-- How far a points-to analysis has come. -/
structure State where
  arena : Arena := ∅
  flow : FlowEdges := ∅
  /-- The objects on their way to pointers. -/
  pending : Pending
  /-- The methods and calls found so far, each with its context. -/
  calls : CallGraph ContextSite ContextMethod := {}
deriving Inhabited

namespace State

def contextId (s : State) (c : Context) : ContextId × State :=
  let (i, arena) := s.arena.contextId c
  (i, { s with arena })

def objectId (s : State) (o : AbstractObject) : ObjId × State :=
  let (i, arena) := s.arena.objectId o
  (i, { s with arena })

def pointerId (s : State) (p : Pointer) : PointerId × State :=
  let (i, arena) := s.arena.pointerId p
  (i, { s with arena })

/-- Send an object to a pointer. -/
def send (s : State) (o : ObjId) (p : Pointer) : State :=
  let (p, s) := s.pointerId p
  { s with pending := s.pending.push p (.single o) }

/-- Let objects flow from one pointer to another, and send on those that the first one has. -/
def addFlow (s : State) (source target : PointerId) : State :=
  let (isNew, flow) := s.flow.add (source, target)
  if isNew then
    { s with flow, pending := s.pending.push target (s.arena.objectsOf source) }
  else s

theorem addFlow_eq (s : State) (source target : PointerId) :
    s.addFlow source target =
      if s.flow.contains source target then s
      else
        { s with
          flow := s.flow.insert source target
          pending := s.pending.push target (s.arena.objectsOf source) } := by
  unfold addFlow FlowEdges.add
  cases s.flow.contains source target <;> rfl

/-- Let objects flow between two pointers, which are added if they are new. -/
def connect (s : State) (source target : Pointer) : State :=
  let (source, s) := s.pointerId source
  let (target, s) := s.pointerId target
  s.addFlow source target

/-- Let objects arrive at a pointer. The new ones among them are sent on along the flow. -/
def absorb (s : State) (p : PointerId) (objects : ObjectSet) : ObjectSet × State :=
  let (new, _) := (s.arena.objectsOf p).addAll objects
  (new,
    { s with
      arena := s.arena.grow p new
      pending := (s.flow.succs p).foldl (fun w q => w.push q new) s.pending })

/-- Where an analysis starts: only the context of the entry method is known. -/
def initial (how : Sensitivity) (discipline : Discipline) : State :=
  (State.contextId { pending := .empty discipline } how.start).2

end State

end ObjectFlow.PointsTo
