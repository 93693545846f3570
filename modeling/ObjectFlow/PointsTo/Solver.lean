import ObjectFlow.PointsTo.Rules

/-!
# Running the points-to analysis

`start` makes the entry method reachable, and each `step` lets the objects arrive that wait for one
pointer. When nothing is pending any more the analysis has reached its fixpoint; `check` tests what
then must hold.

Entering a method may enter further methods, and an analysis need not end at all: with contexts that
remember two receivers or more, objects may be nested in contexts of objects ever deeper. So the
functions that repeat something take a limit on how often they do it and fail when they reach it.
-/

namespace ObjectFlow.PointsTo

namespace State

variable (p : Program) (how : Sensitivity)

/-- Perform tasks, and those that follow from them, in depth-first order. -/
def drain : (limit : Nat) → List Task → State → Except Fault State
  | _, [], s => return s
  | 0, _ :: _, _ => throw .boundReached
  | limit + 1, t :: tasks, s => do
    let (next, s) ← s.perform p how t
    drain limit (next ++ tasks) s

/-- Make the entry method reachable. Doing it again changes nothing. -/
def start (limit : Nat) (s : State) : Except Fault State :=
  let (c, s) := s.contextId how.start
  { s with calls := s.calls.addEntry (c, p.entry) }.drain p how limit [.enter c p.entry]

/-- Let the objects arrive that wait for the next pointer; `none` if nothing is pending. -/
def step (limit : Nat) (s : State) : Except Fault (Option State) := do
  match ← s.pending.pop with
  | none => return none
  | some (pointer, objects, pending) =>
    let (new, s) := { s with pending }.absorb pointer objects
    let tasks ← s.reactions p pointer new.toList
    return some (← drain p how limit tasks s)

/-- Take at most `n` steps, fewer if nothing is pending any more. The number that comes with the
state says how many steps were left. -/
def run (limit : Nat) : (n : Nat) → State → Except Fault (Nat × State)
  | 0, s => return (0, s)
  | n + 1, s => do
    match ← s.step p how limit with
    | none => return (n + 1, s)
    | some s => run limit n s

/-- Start, if that has not been done, and take steps until nothing is pending. -/
def solve (limit : Nat) (s : State) : Except Fault State := do
  let (_, s) ← run p how limit limit (← s.start p how limit)
  if s.pending.isEmpty then return s
  throw .boundReached

/-- What a variable is known to point to, in any context. -/
def pointsTo (s : State) (v : VarId) : ObjectSet :=
  s.arena.pointerEntries.foldl (fun set (id, pointer) =>
    match pointer with
    | .var _ w => if w = v then set ∪ s.arena.objectsOf id else set
    | .instanceField .. | .staticField _ | .elements _ => set) ∅

/-! ## Checking a fixpoint -/

/-- Fail unless every edge of the flow leads to a pointer that has the objects of its source. -/
def checkFlow (s : State) : Except Fault Unit :=
  s.flow.toList.forM fun (source, target) => do
    unless (← s.arena.pointsTo source).isSubset (← s.arena.pointsTo target) do
      let source ← s.arena.pointer source
      let target ← s.arena.pointer target
      throw (.flowMissing (toString source) (toString target))

/-- Fail unless a call leads to the method that an object at its receiver chooses. -/
def checkCall (s : State) (c : ContextId) (site : StmtId) (call : Invoke) (o : ObjId) :
    Except Fault Unit := do
  let some m ← p.hierarchy.callee (← s.arena.object o).class? call | return
  unless (s.calls.callees (c, site)).any (·.2 = m) do
    throw (.callEdgeMissing site (← p.methodName m))

/-- Fail unless every call of the reachable methods leads to the methods that the objects at its
receiver choose. -/
def checkCalls (s : State) : Except Fault Unit :=
  s.calls.reachable.toList.forM fun (c, m) => do
    (← p.method m).callSites.forM fun site => do
      let some call ← p.invoke? site | return
      let some receiver := call.receiver | return
      let some pointer := s.arena.pointerId? (.var c receiver) | return
      (← s.arena.pointsTo pointer).toList.forM (s.checkCall p c site call)

/-- Fail unless nothing is pending and the rules have been applied everywhere. -/
def check (s : State) : Except Fault Unit := do
  unless s.pending.isEmpty do throw .pendingWork
  s.checkFlow
  s.checkCalls p

end State

/-- The size of what an analysis has found. -/
structure Metrics where
  reachableMethods : Nat
  callEdges : Nat
  pointers : Nat
  flowEdges : Nat
  objects : Nat
  contexts : Nat
  /-- How often a pointer may point to an object. -/
  facts : Nat
deriving DecidableEq, Repr, Inhabited

def State.metrics (s : State) : Metrics where
  reachableMethods := s.calls.reachable.size
  callEdges := s.calls.edges.size
  pointers := s.arena.pointers.size
  flowEdges := s.flow.size
  objects := s.arena.objects.size
  contexts := s.arena.contexts.size
  facts := s.arena.factCount

end ObjectFlow.PointsTo
