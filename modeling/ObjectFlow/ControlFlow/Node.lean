import ObjectFlow.Program.Id

/-!
# Nodes of control flow graphs

The nodes of a method are its statements, with an entry before and an exit behind them.
-/

namespace ObjectFlow

/-- A point in the execution of a method. -/
inductive Node
  | entry (m : MethodId)
  | stmt (s : StmtId)
  | exit (m : MethodId)
deriving DecidableEq, Repr, Inhabited

namespace Node

def method : Node → MethodId
  | entry m | exit m => m
  | stmt s => s.method

instance : ToString Node where
  toString
    | entry m => toString m ++ "[entry]"
    | stmt s => toString s
    | exit m => toString m ++ "[exit]"

/-- All entries by method, then all statements by method and position, then all exits by method. -/
instance : Keyed Node where
  key
    | entry m => [0, m.index]
    | stmt s => [1, s.method.index, s.index]
    | exit m => [2, m.index]
  key_injective {a b} h := by
    rcases a with ⟨⟨a⟩⟩ | ⟨⟨⟨a⟩, i⟩⟩ | ⟨⟨a⟩⟩ <;> rcases b with ⟨⟨b⟩⟩ | ⟨⟨⟨b⟩, j⟩⟩ | ⟨⟨b⟩⟩ <;>
      simp_all

end Node

/-- A directed graph with two marked nodes, in which the neighbours of a node have an order. -/
structure FlowGraph (ν : Type) where
  nodes : List ν
  entry : ν
  exit : ν
  preds : ν → List ν
  succs : ν → List ν

namespace FlowGraph

variable {ν : Type}

/-- The graph with all its edges turned round. -/
def reverse (g : FlowGraph ν) : FlowGraph ν where
  nodes := g.nodes
  entry := g.exit
  exit := g.entry
  preds := g.succs
  succs := g.preds

end FlowGraph

end ObjectFlow
