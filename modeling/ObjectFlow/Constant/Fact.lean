import ObjectFlow.Constant.Value

/-!
# Facts about numeric variables

A fact gives each variable a value. Only finitely many variables have one other than undefined, and
only these are stored, so that two facts are equal exactly if they agree on every variable.
-/

namespace ObjectFlow

open Std

/-- A value for each variable. -/
structure ConstFact where
  /-- The variables that are not undefined. -/
  bindings : ExtTreeMap VarId Value
  ne_unset : ∀ v : VarId, bindings[v]? ≠ some .unset

namespace ConstFact

/-- The fact in which every variable is undefined. -/
def empty : ConstFact := ⟨∅, by simp⟩

instance : EmptyCollection ConstFact := ⟨empty⟩

instance : Inhabited ConstFact := ⟨empty⟩

instance : DecidableEq ConstFact := fun a b =>
  decidable_of_iff (a.bindings = b.bindings)
    ⟨fun h => by cases a; cases b; simpa using h, congrArg bindings⟩

def get (f : ConstFact) (v : VarId) : Value := f.bindings[v]?.getD .unset

/-- The fact in which a variable is undefined. -/
def remove (f : ConstFact) (v : VarId) : ConstFact where
  bindings := f.bindings.erase v
  ne_unset w := by
    rw [ExtTreeMap.getElem?_erase]
    split
    · simp
    · exact f.ne_unset w

/-- Give a variable a new value, and say whether that changes the fact. -/
def set (f : ConstFact) (v : VarId) (value : Value) : Bool × ConstFact :=
  if h : value = .unset then (f.bindings.contains v, f.remove v)
  else
    (f.bindings[v]? ≠ some value,
      { bindings := f.bindings.insert v value
        ne_unset := fun w => by
          rw [ExtTreeMap.getElem?_insert]
          split
          · simpa using h
          · exact f.ne_unset w })

/-- The fact in which a variable has a new value. -/
def update (f : ConstFact) (v : VarId) (value : Value) : ConstFact := (f.set v value).2

/-- The variables that are not undefined, in ascending order, with their values. -/
def toList (f : ConstFact) : List (VarId × Value) := f.bindings.toList

/-- A fact met into another one, variable by variable. -/
def meet (f target : ConstFact) : ConstFact :=
  f.toList.foldl (fun t (v, value) => t.update v ((t.get v).meet value)) target

instance : ToString ConstFact where
  toString f :=
    "\x7b" ++ ", ".intercalate (f.toList.map fun (v, value) => s!"{v}={value}") ++ "\x7d"

/-! ## Facts as functions of the variable -/

@[simp] theorem get_empty (v : VarId) : (∅ : ConstFact).get v = .unset := by
  change ((∅ : ExtTreeMap VarId Value)[v]?).getD Value.unset = Value.unset
  simp

theorem get_remove (f : ConstFact) (v w : VarId) :
    (f.remove v).get w = if v = w then .unset else f.get w := by
  simp only [get, remove, ExtTreeMap.getElem?_erase, LawfulEqOrd.compare_eq_iff_eq]
  split <;> simp

theorem get_update (f : ConstFact) (v w : VarId) (value : Value) :
    (f.update v value).get w = if v = w then value else f.get w := by
  unfold update set
  split
  · next h => rw [get_remove, h]
  · simp only [get, ExtTreeMap.getElem?_insert, LawfulEqOrd.compare_eq_iff_eq]
    split <;> simp

theorem getElem?_bindings (f : ConstFact) (v : VarId) :
    f.bindings[v]? = if f.get v = .unset then none else some (f.get v) := by
  have h := f.ne_unset v
  cases hb : f.bindings[v]? with
  | none => simp [get, hb]
  | some value =>
    have : value ≠ .unset := fun hc => h (by rw [hb, hc])
    simp [get, hb, this]

@[ext] theorem ext {f g : ConstFact} (h : ∀ v, f.get v = g.get v) : f = g := by
  have : f.bindings = g.bindings := ExtTreeMap.ext_getElem? fun v => by
    rw [getElem?_bindings, getElem?_bindings, h]
  cases f; cases g
  simpa using this

end ConstFact

end ObjectFlow
