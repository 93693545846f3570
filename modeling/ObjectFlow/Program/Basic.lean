import ObjectFlow.Program.Hierarchy

/-!
# Programs

A program is a model that passed every check, together with the indexes that analyses ask for all
the time: the class hierarchy, the returned variables and call sites of each method, and for each
variable the heap accesses and calls that go through it.
-/

namespace ObjectFlow

/-- The heap accesses and calls through a variable, each list in the order of the statements. Only
accesses to instances are listed, since only these depend on what the variable points to. -/
structure VarUses where
  /-- `x.f = y` -/
  storeFields : List StmtId
  /-- `y = x.f` -/
  loadFields : List StmtId
  /-- `x[i] = y` -/
  storeArrays : List StmtId
  /-- `y = x[i]` -/
  loadArrays : List StmtId
  /-- `x.m(...)` -/
  invokes : List StmtId
deriving DecidableEq, Repr, Inhabited

structure Method where
  id : MethodId
  decl : MethodDecl
  /-- The variables that the method returns, in the order of their first return. -/
  returnVars : List VarId
  /-- The variables declared in the method. -/
  vars : List VarId
  callSites : List StmtId
deriving DecidableEq, Repr, Inhabited

/-- The statements of a method with their names, in the order of the body. -/
def Method.stmts (m : Method) : List (StmtId × Stmt) := m.decl.stmts m.id

/-- A checked model with its indexes. -/
structure Program where
  model : Model
  hierarchy : Hierarchy
  methods : Array Method
  uses : Array VarUses

namespace Model

/-- The statements of a list that satisfy a test. -/
def sitesWhere (stmts : List (StmtId × Stmt)) (p : Stmt → Bool) : List StmtId :=
  (stmts.filter (p ·.2)).map (·.1)

/-- The uses of a variable in the statements of its method. -/
def varUses (stmts : List (StmtId × Stmt)) (v : VarId) : VarUses where
  storeFields := sitesWhere stmts fun
    | .storeField access _ => access.base = some v
    | _ => false
  loadFields := sitesWhere stmts fun
    | .loadField _ access => access.base = some v
    | _ => false
  storeArrays := sitesWhere stmts fun
    | .storeArray base _ _ => base = v
    | _ => false
  loadArrays := sitesWhere stmts fun
    | .loadArray _ base _ => base = v
    | _ => false
  invokes := sitesWhere stmts fun
    | .invoke call => call.receiver = some v
    | _ => false

/-- The variables that a list of statements returns, in the order of their first return. -/
def returnedVars (stmts : List (StmtId × Stmt)) : List VarId :=
  (Roster.ofList (stmts.filterMap fun
    | (_, .ret value) => value
    | _ => none)).toList

def indexedMethod (m : Model) (id : MethodId) (d : MethodDecl) : Method where
  id := id
  decl := d
  returnVars := returnedVars (d.stmts id)
  vars := m.varEntries.filterMap fun (v, e) => if e.method = id then some v else none
  callSites := sitesWhere (d.stmts id) (·.call?.isSome)

end Model

namespace Program

/-- A model with its indexes. -/
def index (m : Model) : Program where
  model := m
  hierarchy := .ofModel m
  methods := (m.methodEntries.map fun (id, d) => m.indexedMethod id d).toArray
  uses := (m.varEntries.map fun (v, d) =>
    Model.varUses (((m.methods[d.method.index]?).map (·.stmts d.method)).getD []) v).toArray

/-- The program of a model, or the first thing that is wrong with the model. -/
def ofModel (m : Model) : Except ModelError Program :=
  match m.violations with
  | [] => .ok (index m)
  | e :: _ => .error e

/-- The method where execution starts. -/
def entry (p : Program) : MethodId := p.model.entry

/-- Every method, in ascending order. -/
def methodIds (p : Program) : List MethodId := p.model.methodIds

def classDecl (p : Program) (c : ClassId) : Except Fault ClassDecl :=
  orUnknown p.model.classes[c.index]?

def method (p : Program) (m : MethodId) : Except Fault Method :=
  orUnknown p.methods[m.index]?

def var (p : Program) (v : VarId) : Except Fault VarDecl :=
  orUnknown p.model.vars[v.index]?

/-- The heap accesses and calls through a variable. -/
def varUses (p : Program) (v : VarId) : Except Fault VarUses :=
  orUnknown p.uses[v.index]?

def stmt (p : Program) (s : StmtId) : Except Fault Stmt := do
  orUnknown (← p.method s.method).decl.body[s.index]?

def invoke? (p : Program) (s : StmtId) : Except Fault (Option Invoke) := do
  return (← p.stmt s).call?

def holdsInt (p : Program) (v : VarId) : Except Fault Bool := do
  return (← p.var v).ty.holdsInt

/-- Class and name of a method, for a reader. -/
def methodName (p : Program) (m : MethodId) : Except Fault String := do
  let d := (← p.method m).decl
  let owner ← p.classDecl d.owner
  return owner.name ++ "." ++ d.name

/-- Class, method and name of a variable, for a reader. -/
def varName (p : Program) (v : VarId) : Except Fault String := do
  let d ← p.var v
  let method ← p.methodName d.method
  return method ++ "/" ++ d.name

end Program

end ObjectFlow
