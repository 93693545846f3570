import ObjectFlow.CallGraph.Basic
import ObjectFlow.ControlFlow.Graph

/-!
# The supergraph of a program

The control flow graphs of all reachable methods, joined at their call sites. A call edge leads from
a call site to the entry of each callee, and a return edge from the exit of the callee to each
successor of the call site. Facts about the caller go past the call along an edge of their own.
-/

namespace ObjectFlow

open Std

inductive SuperKind
  /-- A step within a method. -/
  | normal
  /-- A step past a call. -/
  | callToReturn
  | call
  | ret (site : StmtId)
deriving DecidableEq, Repr, Inhabited

instance : ToString SuperKind where
  toString
    | .normal => "normal"
    | .callToReturn => "call-to-return"
    | .call => "call"
    | .ret site => "return " ++ toString site

instance : Keyed SuperKind where
  key
    | .normal => [0]
    | .callToReturn => [1]
    | .call => [2]
    | .ret site => [3, site.method.index, site.index]
  key_injective {a b} h := by
    rcases a with _ | _ | _ | ⟨⟨⟨a⟩, i⟩⟩ <;> rcases b with _ | _ | _ | ⟨⟨⟨b⟩, j⟩⟩ <;> simp_all

structure SuperEdge where
  kind : SuperKind
  source : Node
  target : Node
deriving DecidableEq, Repr, Inhabited

instance : ToString SuperEdge where
  toString e := s!"{e.source} -> {e.target} ({e.kind})"

instance : Keyed SuperEdge where
  key e := Keyed.key ((e.kind, e.source), e.target)
  key_injective {a b} h := by
    have h := Keyed.key_injective h
    cases a; cases b
    simp_all

/-- The control flow graphs of all reachable methods, joined at their call sites. -/
structure Supergraph where
  entries : List MethodId
  nodes : List Node
  edges : List SuperEdge
  /-- The edges into each node. -/
  edgesTo : ExtTreeMap Node (List SuperEdge)
  /-- The edges out of each node. -/
  edgesFrom : ExtTreeMap Node (List SuperEdge)

namespace Supergraph

/-- The call site that a node is, if it is one. -/
def callSite? (p : Program) : Node → Except Fault (Option StmtId)
  | .stmt s => do return if (← p.invoke? s).isSome then some s else none
  | _ => .ok none

/-- The edges that belong to a node of a method: the steps out of it and, at a call site, the call
and return edges of each callee. -/
def edgesAt (p : Program) (calls : CallGraph StmtId MethodId) (g : ControlFlow) (n : Node) :
    Except Fault (List SuperEdge) := do
  match ← callSite? p n with
  | none => return (g.succs n).map fun next => ⟨.normal, n, next⟩
  | some site =>
    return ((g.succs n).map fun next => ⟨.callToReturn, n, next⟩)
      ++ (calls.callees site).flatMap fun callee =>
        ⟨.call, n, .entry callee⟩ :: (g.succs n).map fun next => ⟨.ret site, .exit callee, next⟩

/-- The supergraph of the methods that a call graph reaches. -/
def ofCalls (p : Program) (calls : CallGraph StmtId MethodId) : Except Fault Supergraph := do
  let graphs ← calls.reachable.toList.mapM (ControlFlow.of p)
  let edges ← graphs.mapM fun g => do return (← g.nodes.mapM (edgesAt p calls g)).flatten
  let edges := (Roster.ofList edges.flatten).toList
  return {
    entries := calls.entries.toList
    nodes := graphs.flatMap (·.nodes)
    edges
    edgesTo := groupBy (·.target) edges
    edgesFrom := groupBy (·.source) edges }

def inEdges (g : Supergraph) (n : Node) : List SuperEdge := g.edgesTo.getD n []

def outEdges (g : Supergraph) (n : Node) : List SuperEdge := g.edgesFrom.getD n []

/-- The nodes that edges out of a node lead to, each of them once. -/
def succs (g : Supergraph) (n : Node) : List Node :=
  (Roster.ofList ((g.outEdges n).map (·.target))).toList

end Supergraph

end ObjectFlow
