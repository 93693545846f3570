import ObjectFlow.Constant.Fact
import ObjectFlow.PointsTo.Result

/-!
# Numbers on the heap

What is known about the numbers that fields and array elements hold, for a program whose points-to
analysis has ended. A store through a variable may be seen by every load through a variable that may
point to the same object, so what matters of the points-to analysis is which objects a variable may
point to and which variables may point to an object.
-/

namespace ObjectFlow

namespace Constant

open Std

/-- A place on the heap that may hold numbers. -/
inductive Cell
  | staticField (f : FieldId)
  | instanceField (o : ObjId) (f : FieldId)
  /-- The elements of an array at the indexes that a value stands for. -/
  | element (o : ObjId) (index : Value)
deriving DecidableEq, Repr, Inhabited

instance : Keyed Cell where
  key
    | .staticField f => 0 :: Keyed.key f
    | .instanceField o f => 1 :: Keyed.key (o, f)
    | .element o index => 2 :: Keyed.key (o, index)
  key_injective {a b} h := by
    cases a <;> cases b <;> simp only [List.cons.injEq, true_and, reduceCtorEq, false_and,
      Nat.reduceEqDiff] at h <;> have h := Keyed.key_injective h <;> simp_all

/-- What is known about the numbers on the heap. -/
structure HeapFact where
  cells : ExtTreeMap Cell Value := ∅
deriving Inhabited

namespace HeapFact

def get (h : HeapFact) (c : Cell) : Value := h.cells.getD c .unset

/-- The heap after a value has been met into a cell; nothing if that changes nothing. -/
def store? (h : HeapFact) (c : Cell) (value : Value) : Option HeapFact :=
  let met := (h.get c).meet value
  if met = h.get c then none else some ⟨h.cells.insert c met⟩

/-- The value that any of some arrays may hold at an index. -/
def elements (h : HeapFact) (arrays : ObjectSet) (index : Value) : Value :=
  h.cells.foldl (fun acc c value => match c with
    | .element o i => if o ∈ arrays ∧ i.mayAlias index then acc.meet value else acc
    | .staticField _ | .instanceField .. => acc) .unset

end HeapFact

/-- Who may point to what, and which statements load which fields of classes. -/
structure Aliasing where
  /-- The objects to which each variable may point. -/
  objects : ExtTreeMap VarId ObjectSet
  /-- The variables that may point to each object, in ascending order. -/
  holders : ExtTreeMap ObjId (List VarId)
  /-- The loads of each field of a class in reachable methods. -/
  staticLoads : ExtTreeMap FieldId (List StmtId)
deriving Inhabited

namespace Aliasing

/-- The field of a class that a statement loads. -/
def staticLoad? : Stmt → Option FieldId
  | .loadField _ ⟨none, f⟩ => some f
  | _ => none

/-- What a finished points-to analysis says about aliases. -/
def ofResult (p : Program) (r : PointsTo.Result) : Except Fault Aliasing := do
  let sets := r.vars.map fun v => (v, r.pointsTo v)
  let pairs := sets.flatMap fun (v, s) => s.toList.map fun o => (v, o)
  let methods ← r.plainCalls.reachable.toList.mapM p.method
  let loads := methods.flatMap fun m =>
    m.stmts.filterMap fun (site, s) => (staticLoad? s).map fun f => (f, site)
  return {
    objects := ExtTreeMap.ofList sets
    holders := (groupBy (·.2) pairs).map fun _ g => g.map (·.1)
    staticLoads := (groupBy (·.1) loads).map fun _ g => g.map (·.2) }

def pointsTo (a : Aliasing) (v : VarId) : ObjectSet := a.objects.getD v ∅

/-- The value that a statement loads from the heap, if it does so. -/
def load? (a : Aliasing) (heap : HeapFact) (fact : ConstFact) : Stmt → Option Value
  | .loadField _ ⟨none, f⟩ => some (heap.get (.staticField f))
  | .loadField _ ⟨some base, f⟩ => some <|
      (a.pointsTo base).foldl (fun acc o => acc.meet (heap.get (.instanceField o f))) .unset
  | .loadArray _ base index => some (heap.elements (a.pointsTo base) (fact.get index))
  | _ => none

/-- The variable that a statement stores to the heap, with the cells to which it is stored. An array
store whose index has no value yet stores nowhere. -/
def store? (a : Aliasing) (fact : ConstFact) : Stmt → Option (VarId × List Cell)
  | .storeField ⟨none, f⟩ rhs => some (rhs, [.staticField f])
  | .storeField ⟨some base, f⟩ rhs =>
    some (rhs, (a.pointsTo base).toList.map (.instanceField · f))
  | .storeArray base index rhs =>
    some (rhs, if fact.get index = .unset then []
      else (a.pointsTo base).toList.map (.element · (fact.get index)))
  | _ => none

/-- The statements that may load from a cell. -/
def loadsOf (p : Program) (a : Aliasing) : Cell → Except Fault (List StmtId)
  | .staticField f => return a.staticLoads.getD f []
  | .instanceField o f => do
    let uses ← (a.holders.getD o []).mapM p.varUses
    (uses.flatMap (·.loadFields)).filterM fun site => do
      match ← p.stmt site with
      | .loadField _ access => return access.field = f
      | _ => return false
  | .element o _ => do
    let uses ← (a.holders.getD o []).mapM p.varUses
    return uses.flatMap (·.loadArrays)

end Aliasing

end Constant

end ObjectFlow
