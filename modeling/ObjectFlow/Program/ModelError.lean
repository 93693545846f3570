import ObjectFlow.Program.Id

/-!
# What can be wrong with a program model
-/

namespace ObjectFlow

/-- The reasons to refuse a model. -/
inductive ModelError
  | unknownClass (c : ClassId)
  | unknownField (f : FieldId)
  | unknownMethod (m : MethodId)
  | unknownVar (stmt : StmtId) (var : VarId)
  /-- A variable is used outside of the method that declares it. -/
  | foreignVar (method owner : MethodId) (var : VarId)
  | badTarget (stmt : StmtId) (target : Nat)
  | duplicateMethod (owner : ClassId) (subsignature : String)
  | missingStaticTarget (stmt : StmtId) (owner : ClassId) (subsignature : String)
  | arityMismatch (stmt : StmtId) (subsignature : String) (expected found : Nat)
  | staticFieldThroughObject (stmt : StmtId) (field : FieldId)
  | instanceFieldWithoutObject (stmt : StmtId) (field : FieldId)
  | nonComparisonBranch (stmt : StmtId)
  | abstractWithBody (m : MethodId)
  | missingThis (m : MethodId)
  | staticWithReceiver (stmt : StmtId)
  | missingReceiver (stmt : StmtId)
  | badEntry (m : MethodId)
  | cyclicHierarchy (c : ClassId)
deriving DecidableEq, Repr, Inhabited

namespace ModelError

/-- What is wrong, without the heading that all reasons share. -/
def reason : ModelError → String
  | unknownClass c => s!"unknown class {c}"
  | unknownField f => s!"unknown field {f}"
  | unknownMethod m => s!"unknown method {m}"
  | unknownVar stmt var => s!"unknown variable {var} in {stmt}"
  | foreignVar method owner var => s!"variable {var} used in {method} but declared in {owner}"
  | badTarget stmt target => s!"branch target {target} out of bounds in {stmt}"
  | duplicateMethod owner subsignature => s!"{owner} declares <{subsignature}> twice"
  | missingStaticTarget stmt owner subsignature =>
      s!"no method body for static call to <{subsignature}> in {owner}, at {stmt}"
  | arityMismatch stmt subsignature expected found =>
      s!"{stmt} passes {found} arguments to <{subsignature}>, which takes {expected}"
  | staticFieldThroughObject stmt field =>
      s!"{stmt} accesses static field {field} through an object"
  | instanceFieldWithoutObject stmt field =>
      s!"{stmt} accesses instance field {field} without an object"
  | nonComparisonBranch stmt => s!"branch condition of {stmt} is not a comparison"
  | abstractWithBody m => s!"abstract method {m} has a body"
  | missingThis m => s!"instance method {m} has no `this` variable"
  | staticWithReceiver stmt => s!"{stmt} is static and has a receiver"
  | missingReceiver stmt => s!"{stmt} is an instance call without a receiver"
  | badEntry m => s!"entry method {m} must be static and concrete"
  | cyclicHierarchy c => s!"superclass chain of {c} is cyclic"

def message (e : ModelError) : String := "Malformed program: " ++ e.reason

end ModelError

end ObjectFlow
