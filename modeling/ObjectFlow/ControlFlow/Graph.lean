import ObjectFlow.Collection.Grouping
import ObjectFlow.ControlFlow.Node
import ObjectFlow.Program.Basic

/-!
# The control flow graph of a method

Control enters at the first statement and goes on as each statement says: to the next one, to a
target, or from a return to the exit. Running off the end of the body also leads to the exit.
-/

namespace ObjectFlow

open Std

/-- Why control may go from one node to another. -/
inductive FlowKind
  | entry
  | fallThrough
  | goto
  | ifTrue
  | ifFalse
  | switchCase (value : Int32)
  | switchDefault
  | ret
deriving DecidableEq, Repr, Inhabited

instance : ToString FlowKind where
  toString
    | .entry => "entry"
    | .fallThrough => "fall-through"
    | .goto => "goto"
    | .ifTrue => "if-true"
    | .ifFalse => "if-false"
    | .switchCase value => "case " ++ toString value.toInt
    | .switchDefault => "default"
    | .ret => "return"

/-- A step of control. -/
structure FlowEdge where
  kind : FlowKind
  source : Node
  target : Node
deriving DecidableEq, Repr, Inhabited

/-- The control flow graph of a method. Edges may be parallel; neighbours are listed once. -/
structure ControlFlow where
  method : MethodId
  nodes : List Node
  edges : List FlowEdge
  /-- The pairs of nodes with an edge between them, in the order of the edges. -/
  links : List (Node × Node)
  /-- The links into each node. -/
  linksTo : ExtTreeMap Node (List (Node × Node))
  /-- The links out of each node. -/
  linksFrom : ExtTreeMap Node (List (Node × Node))

namespace ControlFlow

/-- The node at a position of a body with `size` statements; behind the last one is the exit. -/
def nodeAt (m : MethodId) (size i : Nat) : Node :=
  if i < size then .stmt ⟨m, i⟩ else .exit m

/-- The kinds and targets of the steps out of a statement. -/
def steps (m : MethodId) (size i : Nat) : Stmt → List (FlowKind × Node)
  | .goto target => [(.goto, nodeAt m size target)]
  | .branch _ _ _ target => [(.ifTrue, nodeAt m size target), (.ifFalse, nodeAt m size (i + 1))]
  | .switch _ cases default =>
    (cases.map fun c => (.switchCase c.1, nodeAt m size c.2))
      ++ [(.switchDefault, nodeAt m size default)]
  | .ret _ => [(.ret, .exit m)]
  | _ => [(.fallThrough, nodeAt m size (i + 1))]

/-- The steps of control in a method, from the entry on. -/
def edgesOf (m : Method) : List FlowEdge :=
  let size := m.decl.body.size
  ⟨.entry, .entry m.id, nodeAt m.id size 0⟩ :: m.stmts.flatMap fun (site, s) =>
    (steps m.id size site.index s).map fun (kind, target) => ⟨kind, .stmt site, target⟩

/-- The nodes of a method: the entry, the statements in order, the exit. -/
def nodesOf (m : Method) : List Node :=
  .entry m.id :: (m.stmts.map fun (site, _) => .stmt site) ++ [.exit m.id]

def ofMethod (m : Method) : ControlFlow :=
  let edges := edgesOf m
  let links := (Roster.ofList (edges.map fun e => (e.source, e.target))).toList
  { method := m.id
    nodes := nodesOf m
    edges
    links
    linksTo := groupBy (·.2) links
    linksFrom := groupBy (·.1) links }

def of (p : Program) (m : MethodId) : Except Fault ControlFlow := do
  return ofMethod (← p.method m)

/-- The nodes that control may come from. -/
def preds (g : ControlFlow) (n : Node) : List Node := (g.linksTo.getD n []).map (·.1)

/-- The nodes that control may go to. -/
def succs (g : ControlFlow) (n : Node) : List Node := (g.linksFrom.getD n []).map (·.2)

/-- The graph from the entry to the exit of the method. -/
def graph (g : ControlFlow) : FlowGraph Node where
  nodes := g.nodes
  entry := .entry g.method
  exit := .exit g.method
  preds := g.preds
  succs := g.succs

end ControlFlow

end ObjectFlow
