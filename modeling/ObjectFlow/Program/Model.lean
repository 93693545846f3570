import ObjectFlow.Program.Statement

/-!
# Program models

A model is the plain description of a program: its classes, fields, methods and variables in tables,
each named by its place in its table, and the method where execution starts. A model need not make
sense; `ObjectFlow.Program.WellFormed` says when it does.
-/

namespace ObjectFlow

/-- A class or an interface. -/
structure ClassDecl where
  name : String
  superclass : Option ClassId := none
  /-- The interfaces it implements or, for an interface, extends. -/
  interfaces : List ClassId := []
  isInterface : Bool := false
  isAbstract : Bool := false
deriving DecidableEq, Repr, Inhabited

/-- A field of the instances of a class or, if static, of the class itself. -/
structure FieldDecl where
  owner : ClassId
  name : String
  ty : Ty
  isStatic : Bool := false
deriving DecidableEq, Repr, Inhabited

/-- A local variable of a method. -/
structure VarDecl where
  method : MethodId
  name : String
  ty : Ty
deriving DecidableEq, Repr, Inhabited

/-- A method of a class. -/
structure MethodDecl where
  owner : ClassId
  name : String
  /-- Name and parameter types as one text; overriding methods share it. -/
  subsignature : String
  isStatic : Bool := false
  isAbstract : Bool := false
  params : List VarId := []
  /-- The variable that holds the receiver. -/
  this : Option VarId := none
  returnType : Ty
  body : Array Stmt := #[]
deriving DecidableEq, Repr, Inhabited

/-- The plain description of a program. -/
structure Model where
  classes : Array ClassDecl
  fields : Array FieldDecl := #[]
  methods : Array MethodDecl
  vars : Array VarDecl := #[]
  /-- The method where execution starts. -/
  entry : MethodId
deriving DecidableEq, Repr, Inhabited

namespace Model

def classIds (m : Model) : List ClassId := Id.range .classes m.classes.size

def methodIds (m : Model) : List MethodId := Id.range .methods m.methods.size

def varIds (m : Model) : List VarId := Id.range .vars m.vars.size

/-- Every class with its declaration, in ascending order. -/
def classEntries (m : Model) : List (ClassId × ClassDecl) :=
  m.classIds.zip m.classes.toList

/-- Every method with its declaration, in ascending order. -/
def methodEntries (m : Model) : List (MethodId × MethodDecl) :=
  m.methodIds.zip m.methods.toList

/-- Every variable with its declaration, in ascending order. -/
def varEntries (m : Model) : List (VarId × VarDecl) :=
  m.varIds.zip m.vars.toList

/-- The method that a class declares under a subsignature. -/
def declared? (m : Model) (c : ClassId) (subsignature : String) : Option MethodId :=
  (m.methodEntries.find? fun e => e.2.owner = c && e.2.subsignature == subsignature).map (·.1)

end Model

/-- The statements of a method with their names, in the order of the body. -/
def MethodDecl.stmts (d : MethodDecl) (m : MethodId) : List (StmtId × Stmt) :=
  d.body.toList.zipIdx.map fun (s, i) => (⟨m, i⟩, s)

end ObjectFlow
