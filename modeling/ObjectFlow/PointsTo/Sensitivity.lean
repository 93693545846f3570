import ObjectFlow.PointsTo.Context

/-!
# Context sensitivity

A sensitivity decides in which context a callee runs and with which context an allocated object is
tagged. Every rule works on contexts of the limit that the sensitivity was given, so all contexts of
one analysis share a limit.
-/

namespace ObjectFlow

/-- How contexts are chosen, and how many calls they remember. -/
inductive Sensitivity
  /-- There is one context. -/
  | insensitive
  /-- Contexts remember call sites. -/
  | callSite (k : Nat)
  /-- Contexts remember receivers. -/
  | object (k : Nat)
  /-- Contexts remember the classes that allocated the receivers. -/
  | type (k : Nat)
deriving DecidableEq, Repr, Inhabited

/-- The object on which a method is called. -/
structure Receiver where
  id : ObjId
  /-- The class of the method that allocated the object. -/
  container : ClassId
  /-- The heap context of the object. -/
  context : Context
deriving DecidableEq, Repr, Inhabited

namespace Sensitivity

def name : Sensitivity → String
  | insensitive => "ci"
  | callSite _ => "k-call"
  | object _ => "k-obj"
  | type _ => "k-type"

/-- The sensitivity with a given name that remembers `k` calls. -/
def ofName? (k : Nat) : String → Option Sensitivity
  | "ci" => some insensitive
  | "k-call" => some (callSite k)
  | "k-obj" => some (object k)
  | "k-type" => some (type k)
  | _ => none

/-- How many calls a context remembers. -/
def limit : Sensitivity → Nat
  | insensitive => 0
  | callSite k | object k | type k => k

/-- The context in which execution starts. -/
def start (s : Sensitivity) : Context := .empty s.limit

/-- The context in which a method runs that is called without a receiver. -/
def afterStaticCall (s : Sensitivity) (caller : Context) (site : StmtId) : Context :=
  match s with
  | insensitive => s.start
  | callSite _ => caller.push (.site site)
  | object _ | type _ => caller

/-- The context in which a method runs that is called on an object. -/
def afterCall (s : Sensitivity) (caller : Context) (site : StmtId) (receiver : Receiver) :
    Context :=
  match s with
  | insensitive => s.start
  | callSite _ => caller.push (.site site)
  | object _ => receiver.context.push (.object receiver.id)
  | type _ => receiver.context.push (.type receiver.container)

/-- The context with which the objects are tagged that a method allocates: one call fewer than the
method itself remembers. -/
def heap (s : Sensitivity) (method : Context) : Context :=
  match s with
  | insensitive => s.start
  | callSite _ | object _ | type _ => method.newest (method.limit - 1)

end Sensitivity

end ObjectFlow
