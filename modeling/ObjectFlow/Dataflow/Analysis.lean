import ObjectFlow.Collection.Agenda
import ObjectFlow.ControlFlow.Node
import ObjectFlow.Fault

/-!
# Data flow analysis of a graph

An analysis attaches facts to the nodes of a graph. What flows into a node is the meet of what flows
out of its predecessors, and what flows out of it is computed from what flows in. Solving visits the
nodes in turn and visits the successors of a node again whenever what flows out of it has changed.
What flows into a node is met into what flowed in before, so it only ever moves in one direction.

A backward analysis is a forward one on the reversed graph, with the two facts of a node exchanged.
-/

namespace ObjectFlow

open Std

/-- Whether facts flow along the edges or against them. -/
inductive Direction
  | forward
  | backward
deriving DecidableEq, Repr, Inhabited

/-- How facts start, meet and change. -/
structure Analysis (ν φ : Type) where
  direction : Direction
  /-- The fact at the node where facts start to flow. -/
  boundary : φ
  /-- The fact at every other node, before anything is known. -/
  initial : φ
  /-- A fact met into another one. -/
  meet : φ → φ → φ
  /-- What flows out of a node, given what flows into it. -/
  transfer : ν → φ → Except Fault φ

/-- The facts before and behind each node, in the order of control. -/
structure Solution (ν φ : Type) [Keyed ν] where
  inFacts : ExtTreeMap ν φ
  outFacts : ExtTreeMap ν φ
  /-- The nodes in the order of their visits. -/
  visits : List ν

namespace Dataflow

variable {ν φ : Type} [Keyed ν]

/-- How far an analysis has come. -/
structure Progress (ν φ : Type) [Keyed ν] where
  /-- What flows into each node. -/
  input : ExtTreeMap ν φ
  /-- What flows out of each node. -/
  output : ExtTreeMap ν φ
  /-- The nodes still to be visited. -/
  agenda : Agenda ν
  /-- The nodes visited so far, the last one first. -/
  visited : List ν

/-- What flows into a node: the outputs of its predecessors, met into what flowed in before. A
predecessor outside of the graph has no output. -/
def gather (a : Analysis ν φ) (g : FlowGraph ν) (output : ExtTreeMap ν φ) (n : ν) (start : φ) : φ :=
  (g.preds n).foldl (fun acc p => match output[p]? with
    | some fact => a.meet fact acc
    | none => acc) start

variable [DecidableEq ν] [DecidableEq φ]

/-- The state before the first visit: everything but the starting node is to be visited. -/
def start (a : Analysis ν φ) (g : FlowGraph ν) : Progress ν φ :=
  let facts := ExtTreeMap.ofList (g.nodes.map fun n =>
    (n, if n = g.entry then a.boundary else a.initial))
  { input := facts
    output := facts
    agenda := .ofList (g.nodes.filter (· ≠ g.entry))
    visited := [] }

def visit (a : Analysis ν φ) (g : FlowGraph ν) (n : ν) (s : Progress ν φ) :
    Except Fault (Progress ν φ) :=
  match s.input[n]?, s.output[n]? with
  | some before, some old => do
    let input := gather a g s.output n before
    let new ← a.transfer n input
    return {
      input := s.input.insert n input
      output := s.output.insert n new
      agenda := if new = old then s.agenda else s.agenda.pushMany ((g.succs n).filter (· ≠ g.entry))
      visited := n :: s.visited }
  | _, _ => .error .outsideGraph

/-- Visit nodes until none is left, but at most the given number of times. -/
def run (a : Analysis ν φ) (g : FlowGraph ν) : (limit : Nat) → Progress ν φ →
    Except Fault (Progress ν φ)
  | limit, s =>
    match s.agenda.pop? with
    | none => .ok s
    | some (n, agenda) =>
      match limit with
      | 0 => .error .boundReached
      | limit + 1 => do run a g limit (← visit a g n { s with agenda })

/-- The facts of a graph, if at most `limit` visits lead to them. -/
def solve (a : Analysis ν φ) (g : FlowGraph ν) (limit : Nat) : Except Fault (Solution ν φ) := do
  match a.direction with
  | .forward =>
    let s ← run a g limit (start a g)
    return ⟨s.input, s.output, s.visited.reverse⟩
  | .backward =>
    let s ← run a g.reverse limit (start a g.reverse)
    return ⟨s.output, s.input, s.visited.reverse⟩

end Dataflow

/-- A number of visits that suffices if what flows into a node can change at most `height` times.
Each change makes what flows out of the node change at most once, the first visit adds one more, and
each of these queues the neighbours of the node. -/
def FlowGraph.visitBound {ν : Type} (g : FlowGraph ν) (height : Nat) : Nat :=
  g.nodes.length + (height + 1) * (g.nodes.flatMap fun n => g.succs n ++ g.preds n).length

end ObjectFlow
