import ObjectFlow.Constant.Heap
import ObjectFlow.Constant.Propagation
import ObjectFlow.Dataflow.SuperAnalysis

/-!
# Constant propagation in a program

Constants are followed along calls and, with the help of a points-to analysis, through the heap.
Arguments flow to parameters along call edges and returned values to the result along return edges;
what the caller knows otherwise goes past the call, except for the variable that takes the result.
When a store changes what is known about a cell of the heap, the loads that may see it are visited
again.
-/

namespace ObjectFlow

namespace Constant

/-- The fact behind a node of the supergraph. The result of a call arrives along return edges, so a
call itself assigns nothing. -/
def transferWithHeap (p : Program) (a : Aliasing) (heap : HeapFact) (n : Node) (fact : ConstFact) :
    Except Fault ConstFact :=
  match n with
  | .stmt site => do
    let s ← p.stmt site
    if s.call?.isSome then return fact
    assign p s (match a.load? heap fact s with
      | some value => .ok value
      | none => evaluate p s fact) fact
  | .entry _ | .exit _ => .ok fact

/-- The fact with which a callee starts: its numeric parameters have the values of the arguments. -/
def enterCallee (p : Program) (call : Invoke) (callee : MethodId) (fact : ConstFact) :
    Except Fault ConstFact := do
  let params := (← p.method callee).decl.params
  (call.args.zip params).foldlM (fun start (arg, param) => do
    return if ← p.holdsInt param then start.update param (fact.get arg) else start) ∅

/-- The fact that a callee leaves to its caller: a numeric result has the value of any of the
returned variables. -/
def leaveCallee (p : Program) (call : Invoke) (callee : MethodId) (fact : ConstFact) :
    Except Fault ConstFact := do
  let some lhs := call.result | return ∅
  unless ← p.holdsInt lhs do return ∅
  let returned := (← p.method callee).returnVars
  return (∅ : ConstFact).update lhs (returned.foldl (fun acc v => acc.meet (fact.get v)) .unset)

/-- The fact that flows along an edge. -/
def along (p : Program) (e : SuperEdge) (fact : ConstFact) : Except Fault ConstFact :=
  match e.kind with
  | .normal => return fact
  | .callToReturn => do
    let .stmt site := e.source | return fact
    match (← p.invoke? site).bind (·.result) with
    | some lhs => return fact.remove lhs
    | none => return fact
  | .call => do
    match e.source, e.target with
    | .stmt site, .entry callee =>
      match ← p.invoke? site with
      | some call => enterCallee p call callee fact
      | none => throw (.flowWithoutCall site)
    | source, target => throw (.malformedCallEdge (toString source) (toString target))
  | .ret site => do
    match ← p.invoke? site with
    | some call => leaveCallee p call e.source.method fact
    | none => return ∅

/-- Meet a value into cells, and list the loads that see a change. -/
def storeAll (p : Program) (a : Aliasing) (heap : HeapFact) (cells : List Cell) (value : Value) :
    Except Fault (HeapFact × List Node) :=
  cells.foldlM (fun (heap, affected) c =>
    match heap.store? c value with
    | none => return (heap, affected)
    | some heap => do return (heap, affected ++ (← a.loadsOf p c).map Node.stmt)) (heap, [])

/-- The heap after a node has been reached, and the nodes that see the change. Only stores of
numeric variables count. -/
def refine (p : Program) (a : Aliasing) (heap : HeapFact) (n : Node) (fact : ConstFact) :
    Except Fault (HeapFact × List Node) := do
  let .stmt site := n | return (heap, [])
  let some (rhs, cells) := a.store? fact (← p.stmt site) | return (heap, [])
  if ← p.holdsInt rhs then storeAll p a heap cells (fact.get rhs)
  else return (heap, [])

/-- The analysis of a program with known aliases. -/
def superAnalysis (p : Program) (a : Aliasing) : SuperAnalysis HeapFact ConstFact where
  boundary := boundary p
  initial := ∅
  meet := ConstFact.meet
  along := along p
  refine := refine p a
  transfer := transferWithHeap p a

/-- Enough visits for any program. What flows into a node changes at most twice for each variable,
and the heap at most twice for each cell. An array has at most two cells for each statement that
stores to it, since the index of a store is first a constant and then none. -/
def visitBound (p : Program) (r : PointsTo.Result) (g : Supergraph) : Nat :=
  let nodes := g.nodes.length
  let objects := r.arena.objects.size
  let cells := p.model.fields.size * (objects + 1) + objects * (2 * nodes)
  let changes := 2 * (p.model.vars.size + cells)
  nodes * (nodes + 1) * (changes + 1)

/-- The constants at each point of the reachable methods of a program. -/
def propagateProgram (p : Program) (r : PointsTo.Result) :
    Except Fault (Solution Node ConstFact) := do
  let g ← Supergraph.ofCalls p r.plainCalls
  Dataflow.solveSuper (superAnalysis p (← Aliasing.ofResult p r)) g {} (visitBound p r g)

/-- The numeric definitions of methods in the order of the statements, with the value that the
variable has behind each of them. -/
def definitions (p : Program) (methods : List MethodId) (facts : Solution Node ConstFact) :
    Except Fault (List (StmtId × VarId × Value)) := do
  let stmts := (← methods.mapM p.method).flatMap (·.stmts)
  let numeric ← stmts.filterMapM fun (site, s) => do
    match s.defined with
    | some lhs => return if ← p.holdsInt lhs then some (site, lhs) else none
    | none => return none
  return numeric.filterMap fun (site, lhs) =>
    facts.outFacts[Node.stmt site]?.map fun fact => (site, lhs, fact.get lhs)

end Constant

end ObjectFlow
