import ObjectFlow.Program.Basic
import ObjectFlow.Text.Blank

/-!
# Building a model step by step

A builder is a model under construction, without an entry. Declaring something appends it to its
table and returns its name; pushing a statement appends it to the body of a method. Names that are
only stored are not looked at here: checking the finished model finds them.
-/

namespace ObjectFlow

/-- A model under construction. -/
structure Builder where
  classes : Array ClassDecl := #[]
  fields : Array FieldDecl := #[]
  methods : Array MethodDecl := #[]
  vars : Array VarDecl := #[]
deriving Repr, Inhabited

/-- The name of a method, read off its subsignature: the last word before the first parenthesis, or
the whole subsignature if there is no parenthesis or no word before it. -/
def nameOfSubsignature (subsignature : String) : String :=
  let chars := subsignature.toList
  if '(' ∈ chars then
    ((Text.words (chars.takeWhile (· ≠ '('))).getLast?.map String.ofList).getD subsignature
  else subsignature

namespace Builder

/-! ## Declarations -/

def addClass (b : Builder) (d : ClassDecl) : ClassId × Builder :=
  (⟨b.classes.size⟩, { b with classes := b.classes.push d })

def addField (b : Builder) (d : FieldDecl) : FieldId × Builder :=
  (⟨b.fields.size⟩, { b with fields := b.fields.push d })

/-- Declare a variable of a method. -/
def addVar (b : Builder) (d : VarDecl) : VarId × Builder :=
  (⟨b.vars.size⟩, { b with vars := b.vars.push d })

/-- Declare a method, named after its subsignature and without parameters, receiver or body. -/
def addMethod (b : Builder) (owner : ClassId) (subsignature : String) (returnType : Ty)
    (isStatic isAbstract : Bool) : MethodId × Builder :=
  let d : MethodDecl :=
    { owner, subsignature, isStatic, isAbstract, returnType
      name := nameOfSubsignature subsignature }
  (⟨b.methods.size⟩, { b with methods := b.methods.push d })

def plainClass (b : Builder) (name : String) : ClassId × Builder := b.addClass { name }

/-- Declare a class below a superclass. -/
def subclass (b : Builder) (name : String) (superclass : ClassId) : ClassId × Builder :=
  b.addClass { name, superclass := some superclass }

def interfaceClass (b : Builder) (name : String) : ClassId × Builder :=
  b.addClass { name, isInterface := true, isAbstract := true }

def modifyClass (b : Builder) (c : ClassId) (f : ClassDecl → ClassDecl) : Except Fault Builder :=
  if c.index < b.classes.size then .ok { b with classes := b.classes.modify c.index f }
  else .error .unknownId

def modifyMethod (b : Builder) (m : MethodId) (f : MethodDecl → MethodDecl) :
    Except Fault Builder :=
  if m.index < b.methods.size then .ok { b with methods := b.methods.modify m.index f }
  else .error .unknownId

/-- Let a class implement (or an interface extend) an interface. -/
def implements (b : Builder) (c iface : ClassId) : Except Fault Builder :=
  b.modifyClass c fun d => { d with interfaces := d.interfaces ++ [iface] }

def setAbstract (b : Builder) (c : ClassId) : Except Fault Builder :=
  b.modifyClass c fun d => { d with isAbstract := true }

/-- Declare a concrete method that is called on a receiver, with a variable for the receiver. -/
def instanceMethod (b : Builder) (owner : ClassId) (subsignature : String) (returnType : Ty) :
    Except Fault (MethodId × Builder) := do
  let (m, b) := b.addMethod owner subsignature returnType false false
  let (this, b) := b.addVar ⟨m, "this", .ref owner⟩
  return (m, ← b.modifyMethod m fun d => { d with this := some this })

/-- Declare a variable and make it the last parameter of its method. -/
def addParam (b : Builder) (d : VarDecl) : Except Fault (VarId × Builder) := do
  let (v, b) := b.addVar d
  return (v, ← b.modifyMethod d.method fun e => { e with params := e.params ++ [v] })

def methodDecl (b : Builder) (m : MethodId) : Except Fault MethodDecl :=
  orUnknown b.methods[m.index]?

/-- The variable that holds the receiver of a method. -/
def this (b : Builder) (m : MethodId) : Except Fault (Option VarId) := do
  return (← b.methodDecl m).this

/-! ## Statements -/

/-- The position that the next statement of a method will have. -/
def nextIndex (b : Builder) (m : MethodId) : Except Fault Nat := do
  return (← b.methodDecl m).body.size

def push (b : Builder) (m : MethodId) (s : Stmt) : Except Fault (StmtId × Builder) := do
  let index ← b.nextIndex m
  return (⟨m, index⟩, ← b.modifyMethod m fun d => { d with body := d.body.push s })

/-- Append a call that names a method by its class and subsignature. -/
def call (b : Builder) (m : MethodId) (kind : CallKind) (result receiver : Option VarId)
    (callee : MethodId) (args : List VarId) : Except Fault (StmtId × Builder) := do
  let target ← b.methodDecl callee
  b.push m (.invoke ⟨kind, result, receiver, ⟨target.owner, target.subsignature⟩, args⟩)

/-! ## Finishing -/

def toModel (b : Builder) (entry : MethodId) : Model :=
  ⟨b.classes, b.fields, b.methods, b.vars, entry⟩

def build (b : Builder) (entry : MethodId) : Except ModelError Program :=
  Program.ofModel (b.toModel entry)

end Builder

end ObjectFlow
