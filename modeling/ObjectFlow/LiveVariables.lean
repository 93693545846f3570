import ObjectFlow.ControlFlow.Graph
import ObjectFlow.Dataflow.Analysis

/-!
# Live variables

A backward analysis that finds for each point of a method which variables may still be read before
they are assigned again.
-/

namespace ObjectFlow

open Std

namespace LiveVariables

/-- The variables that are live before a node, given those that are live behind it. -/
def transfer (p : Program) (n : Node) (live : ExtTreeSet VarId) :
    Except Fault (ExtTreeSet VarId) :=
  match n with
  | .stmt site => do
    let s ← p.stmt site
    return (live \ ExtTreeSet.ofList s.defined.toList) ∪ ExtTreeSet.ofList s.used
  | .entry _ | .exit _ => .ok live

def analysis (p : Program) : Analysis Node (ExtTreeSet VarId) where
  direction := .backward
  boundary := ∅
  initial := ∅
  meet fact target := target ∪ fact
  transfer := transfer p

/-- The variables that are live at each point of a method. -/
def solve (p : Program) (m : MethodId) : Except Fault (Solution Node (ExtTreeSet VarId)) := do
  let g := (← ControlFlow.of p m).graph
  Dataflow.solve (analysis p) g (g.visitBound p.model.vars.size)

end LiveVariables

end ObjectFlow
