import ObjectFlow.Constant.Fact
import ObjectFlow.ControlFlow.Graph
import ObjectFlow.Dataflow.Analysis

/-!
# Constant propagation in a method

A forward analysis that finds for each point of a method which numeric variables are constant there.
Calls and the heap are taken to give any number.
-/

namespace ObjectFlow

namespace Constant

/-- The value of a variable, which may be anything if the variable is not numeric. -/
def read (p : Program) (fact : ConstFact) (v : VarId) : Except Fault Value := do
  return if ← p.holdsInt v then fact.get v else .nac

def evaluate (p : Program) (s : Stmt) (fact : ConstFact) : Except Fault Value :=
  match s with
  | .literal _ value => .ok (.const value)
  | .copy _ rhs => read p fact rhs
  | .binary _ op left right => do
    if (← p.holdsInt left) && (← p.holdsInt right) then
      return op.evaluate (fact.get left) (fact.get right)
    else return .nac
  | .alloc .. | .cast .. | .loadField .. | .loadArray .. | .invoke .. => .ok .nac
  | .storeField .. | .storeArray .. | .branch .. | .switch .. | .goto .. | .ret .. | .nop =>
    .ok .unset

/-- The fact behind a statement that assigns the given value. -/
def assign (p : Program) (s : Stmt) (value : Except Fault Value) (fact : ConstFact) :
    Except Fault ConstFact :=
  match s.defined with
  | none => .ok fact
  | some lhs => do
    if ← p.holdsInt lhs then return fact.update lhs (← value) else return fact

def transfer (p : Program) (n : Node) (fact : ConstFact) : Except Fault ConstFact :=
  match n with
  | .stmt site => do
    let s ← p.stmt site
    assign p s (evaluate p s fact) fact
  | .entry _ | .exit _ => .ok fact

/-- The fact at the entry of a method: its numeric parameters may be anything. -/
def boundary (p : Program) (m : MethodId) : Except Fault ConstFact := do
  (← p.method m).decl.params.foldlM (fun fact v => do
    return if ← p.holdsInt v then fact.update v .nac else fact) ∅

def analysis (p : Program) (m : MethodId) : Except Fault (Analysis Node ConstFact) := do
  return {
    direction := .forward
    boundary := ← boundary p m
    initial := ∅
    meet := ConstFact.meet
    transfer := transfer p }

/-- The constants at each point of a method. A variable changes at most twice, from undefined to a
constant and on to no constant. -/
def propagate (p : Program) (m : MethodId) : Except Fault (Solution Node ConstFact) := do
  let g := (← ControlFlow.of p m).graph
  Dataflow.solve (← analysis p m) g (g.visitBound (2 * p.model.vars.size))

end Constant

end ObjectFlow
