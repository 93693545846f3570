import ObjectFlow.PointsTo.Arena

/-!
# Objects and contexts without numbers

Numbers depend on the order in which an analysis came across things. An `Origin` spells an element
of a context out: an object is told by its allocation and by the origins in its heap context. Two
analyses agree on an object if they agree on its origin.
-/

namespace ObjectFlow

/-- An element of a context in which objects are spelled out. -/
inductive Origin
  | site (s : StmtId)
  | type (c : ClassId)
  /-- An object, with the limit and the elements of its heap context. -/
  | object (site : StmtId) (ty : Ty) (container : ClassId) (limit : Nat) (context : List Origin)
deriving Repr, Inhabited

mutual

def Origin.text : Origin → String
  | .site s => toString s
  | .type c => toString c
  | .object s ty _ _ context =>
    s!"new {ty}@{s}@[" ++ ", ".intercalate (Origin.texts context) ++ "]"

def Origin.texts : List Origin → List String
  | [] => []
  | o :: rest => o.text :: Origin.texts rest

end

instance : ToString Origin := ⟨Origin.text⟩

namespace Arena

/-- The origin of an element, as far as objects are nested at most `depth` levels deep. -/
def originWithin (a : Arena) : (depth : Nat) → ContextElement → Except Fault Origin
  | _, .site s => return .site s
  | _, .type c => return .type c
  | 0, .object _ => throw .boundReached
  | depth + 1, .object o => do
    let obj ← a.object o
    let heap ← a.context obj.context
    return .object obj.site obj.ty obj.container heap.limit
      (← heap.items.mapM (a.originWithin depth))

/-- The origin of an element. The objects in the context of an object are older than the object, so
they cannot be nested deeper than there are objects. -/
def origin (a : Arena) (e : ContextElement) : Except Fault Origin :=
  a.originWithin a.objects.size e

/-- An object written without numbers. -/
def objectText (a : Arena) (o : ObjId) : Except Fault String := do
  return (← a.origin (.object o)).text

/-- A context written without numbers. -/
def contextText (a : Arena) (c : ContextId) : Except Fault String := do
  let items ← (← a.context c).items.mapM a.origin
  return "[" ++ ", ".intercalate (items.map Origin.text) ++ "]"

end Arena

end ObjectFlow
