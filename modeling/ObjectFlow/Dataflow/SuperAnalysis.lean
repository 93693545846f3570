import ObjectFlow.ControlFlow.Supergraph
import ObjectFlow.Dataflow.Analysis

/-!
# Data flow analysis of a whole program

A forward analysis of a supergraph. Facts change along edges as well as in nodes, and the analysis
has a state that all nodes share, such as the contents of the heap. Before a node is visited it may
refine that state, which then makes other nodes worth another visit.
-/

namespace ObjectFlow

open Std

/-- How facts start, meet and change in a whole program. -/
structure SuperAnalysis (σ φ : Type) where
  /-- The fact at the entry of a method where execution starts. -/
  boundary : MethodId → Except Fault φ
  /-- The fact at every other node, before anything is known. -/
  initial : φ
  /-- A fact met into another one. -/
  meet : φ → φ → φ
  /-- What flows along an edge, given what flows out of its source. -/
  along : SuperEdge → φ → Except Fault φ
  /-- The shared state after a node has been reached with a fact, and the nodes that this affects.
  -/
  refine : σ → Node → φ → Except Fault (σ × List Node)
  /-- What flows out of a node, given the shared state and what flows into it. -/
  transfer : σ → Node → φ → Except Fault φ

namespace Dataflow

variable {σ φ : Type}

/-- How far the analysis of a program has come. -/
structure SuperProgress (σ φ : Type) extends Progress Node φ where
  shared : σ

namespace Super

/-- What flows into a node: what arrives along its edges, met into what flowed in before. -/
def gather (a : SuperAnalysis σ φ) (g : Supergraph) (output : ExtTreeMap Node φ) (n : Node)
    (start : φ) : Except Fault φ :=
  (g.inEdges n).foldlM (fun acc e => match output[e.source]? with
    | some fact => do return a.meet (← a.along e fact) acc
    | none => .ok acc) start

/-- The state before the first visit: every node is to be visited. -/
def start (a : SuperAnalysis σ φ) (g : Supergraph) (shared : σ) :
    Except Fault (SuperProgress σ φ) := do
  let boundary ← g.entries.mapM fun m => do return (Node.entry m, ← a.boundary m)
  let facts := ExtTreeMap.ofList ((g.nodes.map fun n => (n, a.initial)) ++ boundary)
  return { input := facts, output := facts, agenda := .ofList g.nodes, visited := [], shared }

variable [DecidableEq φ]

def visit (a : SuperAnalysis σ φ) (g : Supergraph) (n : Node) (s : SuperProgress σ φ) :
    Except Fault (SuperProgress σ φ) :=
  match s.input[n]?, s.output[n]? with
  | some before, some old => do
    let input ← gather a g s.output n before
    let (shared, affected) ← a.refine s.shared n input
    let new ← a.transfer shared n input
    let agenda := s.agenda.pushMany affected
    return {
      input := s.input.insert n input
      output := s.output.insert n new
      agenda := if new = old then agenda else agenda.pushMany (g.succs n)
      visited := n :: s.visited
      shared }
  | _, _ => .error .outsideProgramGraph

/-- Visit nodes until none is left, but at most the given number of times. -/
def run (a : SuperAnalysis σ φ) (g : Supergraph) : (limit : Nat) → SuperProgress σ φ →
    Except Fault (SuperProgress σ φ)
  | limit, s =>
    match s.agenda.pop? with
    | none => .ok s
    | some (n, agenda) =>
      match limit with
      | 0 => .error .boundReached
      | limit + 1 => do run a g limit (← visit a g n { s with agenda })

end Super

/-- The facts of a supergraph, if at most `limit` visits lead to them. -/
def solveSuper [DecidableEq φ] (a : SuperAnalysis σ φ) (g : Supergraph) (shared : σ) (limit : Nat) :
    Except Fault (Solution Node φ) := do
  let s ← Super.run a g limit (← Super.start a g shared)
  return ⟨s.input, s.output, s.visited.reverse⟩

end Dataflow

end ObjectFlow
