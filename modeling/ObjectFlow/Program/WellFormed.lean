import ObjectFlow.Program.Model
import ObjectFlow.Program.ModelError
import ObjectFlow.Collection.Roster

/-!
# Checking a model

`Model.violations` lists everything that is wrong with a model, in the order in which a reader of
the tables meets it: classes, fields, variables, owners of methods, the entry, the hierarchy, then
method by method its declaration and its statements, and last the form of the entry method. A model
is accepted when the list is empty; otherwise its first member is the reason to refuse the model.
-/

namespace ObjectFlow

namespace Model

/-! ## Tables -/

/-- A class that is named but not declared. -/
def classViolations (m : Model) (c : ClassId) : List ModelError :=
  if c.index < m.classes.size then [] else [.unknownClass c]

/-- A class in a type that is not declared. -/
def tyViolations (m : Model) : Ty → List ModelError
  | .ref c => m.classViolations c
  | .array element => m.tyViolations element
  | _ => []

/-- What is wrong with the tables of classes, fields and variables, with the owners of methods and
with the number of the entry. -/
def tableViolations (m : Model) : List ModelError :=
  (m.classes.toList.flatMap fun d =>
    d.superclass.toList.flatMap m.classViolations ++ d.interfaces.flatMap m.classViolations)
  ++ (m.fields.toList.flatMap fun d => m.classViolations d.owner ++ m.tyViolations d.ty)
  ++ (m.vars.toList.flatMap fun d =>
    (if d.method.index < m.methods.size then [] else [.unknownMethod d.method])
    ++ m.tyViolations d.ty)
  ++ (m.methods.toList.flatMap fun d => m.classViolations d.owner)
  ++ if m.entry.index < m.methods.size then [] else [.unknownMethod m.entry]

/-! ## Hierarchy -/

def superclass? (m : Model) (c : ClassId) : Option ClassId :=
  m.classes[c.index]?.bind (·.superclass)

/-- A class and its superclasses upward, if there are at most `bound` of them. -/
def lineage? (m : Model) : (bound : Nat) → ClassId → Option (List ClassId)
  | 0, _ => none
  | bound + 1, c =>
    match m.superclass? c with
    | none => some [c]
    | some s => (m.lineage? bound s).map (c :: ·)

/-- The classes whose superclass chain does not end; an endless chain is longer than the table. -/
def cycleViolations (m : Model) : List ModelError :=
  m.classIds.flatMap fun c =>
    if (m.lineage? m.classes.size c).isSome then [] else [.cyclicHierarchy c]

/-- The methods whose class has declared their subsignature before. -/
def duplicateViolations (m : Model) : List ModelError :=
  m.methodEntries.flatMap fun (id, d) =>
    if m.declared? d.owner d.subsignature = some id then []
    else [.duplicateMethod d.owner d.subsignature]

/-! ## Methods -/

/-- A variable that is not declared, or not by the method that uses it. -/
def varViolations (m : Model) (method : MethodId) (site : StmtId) (v : VarId) : List ModelError :=
  match m.vars[v.index]? with
  | none => [.unknownVar site v]
  | some d => if d.method = method then [] else [.foreignVar method d.method v]

/-- A field that is not declared, or is accessed the wrong way. -/
def accessViolations (m : Model) (site : StmtId) (access : FieldAccess) : List ModelError :=
  match m.fields[access.field.index]? with
  | none => [.unknownField access.field]
  | some d =>
    match d.isStatic, access.base with
    | true, some _ => [.staticFieldThroughObject site access.field]
    | false, none => [.instanceFieldWithoutObject site access.field]
    | true, none | false, some _ => []

/-- A branch to a position outside of the body. -/
def targetViolations (d : MethodDecl) (site : StmtId) (target : Nat) : List ModelError :=
  if target < d.body.size then [] else [.badTarget site target]

/-- Whether a method is declared without a body. -/
def isAbstract (m : Model) (id : MethodId) : Bool :=
  (m.methods[id.index]?).any (·.isAbstract)

/-- A call without the receiver that its kind needs, or with one that it must not have, or a static
call of a method without a body. -/
def receiverViolations (m : Model) (site : StmtId) (call : Invoke) : List ModelError :=
  match call.kind, call.receiver with
  | .static, some _ => [.staticWithReceiver site]
  | .static, none =>
    if (m.declared? call.target.owner call.target.subsignature).any (!m.isAbstract ·) then []
    else [.missingStaticTarget site call.target.owner call.target.subsignature]
  | _, none => [.missingReceiver site]
  | _, some _ => []

/-- A call with another number of arguments than the method it names takes. Overriding methods share
the subsignature, so the method named in the call fixes the number if it is declared. -/
def arityViolations (m : Model) (site : StmtId) (call : Invoke) : List ModelError :=
  match m.declared? call.target.owner call.target.subsignature with
  | none => []
  | some callee =>
    let expected := (m.methods[callee.index]?.map (·.params.length)).getD 0
    if call.args.length = expected then []
    else [.arityMismatch site call.target.subsignature expected call.args.length]

/-- What is wrong with a statement: first its variables, then what is particular to its form. -/
def stmtViolations (m : Model) (d : MethodDecl) (site : StmtId) (s : Stmt) : List ModelError :=
  (s.defined.toList ++ s.used).flatMap (m.varViolations site.method site)
  ++ match s with
    | .alloc _ ty | .cast _ _ ty => m.tyViolations ty
    | .loadField _ access | .storeField access _ => m.accessViolations site access
    | .invoke call =>
      m.classViolations call.target.owner ++ m.receiverViolations site call
        ++ m.arityViolations site call
    | .branch op _ _ target =>
      (if op.isComparison then [] else [.nonComparisonBranch site])
        ++ targetViolations d site target
    | .switch _ cases default =>
      targetViolations d site default ++ cases.flatMap fun c => targetViolations d site c.2
    | .goto target => targetViolations d site target
    | _ => []

/-- What is wrong with a method: its form, its parameters and receiver, then its statements. -/
def methodViolations (m : Model) (id : MethodId) (d : MethodDecl) : List ModelError :=
  (if d.isAbstract && !d.body.isEmpty then [.abstractWithBody id] else [])
  ++ (if !d.isStatic && !d.isAbstract && d.this.isNone then [.missingThis id] else [])
  ++ (d.params ++ d.this.toList).flatMap (m.varViolations id ⟨id, 0⟩)
  ++ (d.stmts id).flatMap fun (site, s) => m.stmtViolations d site s

/-- An entry that needs a receiver or has no body. -/
def entryViolations (m : Model) : List ModelError :=
  match m.methods[m.entry.index]? with
  | some d => if d.isStatic && !d.isAbstract then [] else [.badEntry m.entry]
  | none => []

/-- Everything that is wrong with a model, in the order of the check. -/
def violations (m : Model) : List ModelError :=
  m.tableViolations ++ m.cycleViolations ++ m.duplicateViolations
  ++ (m.methodEntries.flatMap fun (id, d) => m.methodViolations id d)
  ++ m.entryViolations

end Model

end ObjectFlow
