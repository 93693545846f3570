/-!
# Double-ended queues

A queue that grows at the back and is taken from either end. It is held as a front part in order and
a back part in reverse, so that pushing and taking from the front cost a constant on average.
`toList` is the one view of it, and every operation is described by what it does to that list.
-/

namespace ObjectFlow

/-- A sequence that grows at the back and shrinks at either end. -/
structure Deque (α : Type) where
  /-- The first elements, in order. -/
  front : List α
  /-- The last elements, the last one first. -/
  back : List α

namespace Deque

variable {α : Type}

def empty : Deque α := ⟨[], []⟩

instance : EmptyCollection (Deque α) := ⟨empty⟩

instance : Inhabited (Deque α) := ⟨empty⟩

/-- The elements from front to back. -/
def toList (q : Deque α) : List α := q.front ++ q.back.reverse

/-- A queue with the elements of a list, from front to back. -/
def ofList (as : List α) : Deque α := ⟨as, []⟩

def size (q : Deque α) : Nat := q.front.length + q.back.length

def isEmpty (q : Deque α) : Bool := q.front.isEmpty && q.back.isEmpty

/-- Add an element at the back. -/
def push (q : Deque α) (a : α) : Deque α := { q with back := a :: q.back }

/-- The element at the front and the queue without it. -/
def popFront? (q : Deque α) : Option (α × Deque α) :=
  match q.front with
  | a :: front => some (a, { q with front })
  | [] =>
    match q.back.reverse with
    | a :: front => some (a, ⟨front, []⟩)
    | [] => none

/-- The element at the back and the queue without it. -/
def popBack? (q : Deque α) : Option (α × Deque α) :=
  match q.back with
  | a :: back => some (a, { q with back })
  | [] =>
    match q.front.reverse with
    | a :: back => some (a, ⟨[], back⟩)
    | [] => none

/-- The element at position `i`, counted from the front, and the queue in which the element at the
back has taken its place. -/
def swapRemove? (q : Deque α) (i : Nat) : Option (α × Deque α) :=
  match q.toList[i]?, q.popBack? with
  | some a, some (last, rest) => some (a, ofList (rest.toList.set i last))
  | _, _ => none

/-! ## The list view -/

@[simp] theorem toList_empty : (∅ : Deque α).toList = [] := rfl

@[simp] theorem toList_ofList (as : List α) : (ofList as).toList = as := by
  simp [ofList, toList]

@[simp] theorem toList_push (q : Deque α) (a : α) : (q.push a).toList = q.toList ++ [a] := by
  simp [push, toList]

@[simp] theorem length_toList (q : Deque α) : q.toList.length = q.size := by
  simp [toList, size]

theorem isEmpty_iff {q : Deque α} : q.isEmpty = true ↔ q.toList = [] := by
  simp [isEmpty, toList]

theorem popFront?_eq_some {q q' : Deque α} {a : α} (h : q.popFront? = some (a, q')) :
    q.toList = a :: q'.toList := by
  obtain ⟨front, back⟩ := q
  cases front with
  | cons b front =>
    simp only [popFront?, Option.some.injEq, Prod.mk.injEq] at h
    simp [toList, ← h.1, ← h.2]
  | nil =>
    cases hb : back.reverse with
    | nil => simp [popFront?, hb] at h
    | cons b front =>
      simp only [popFront?, hb, Option.some.injEq, Prod.mk.injEq] at h
      simp [toList, hb, ← h.1, ← h.2]

theorem popFront?_eq_none {q : Deque α} : q.popFront? = none ↔ q.toList = [] := by
  obtain ⟨front, back⟩ := q
  cases front with
  | cons b front => simp [popFront?, toList]
  | nil => cases hb : back.reverse <;> simp [popFront?, toList, hb]

theorem popBack?_eq_some {q q' : Deque α} {a : α} (h : q.popBack? = some (a, q')) :
    q.toList = q'.toList ++ [a] := by
  obtain ⟨front, back⟩ := q
  cases back with
  | cons b back =>
    simp only [popBack?, Option.some.injEq, Prod.mk.injEq] at h
    simp [toList, ← h.1, ← h.2]
  | nil =>
    cases hb : front.reverse with
    | nil => simp [popBack?, hb] at h
    | cons b back =>
      simp only [popBack?, hb, Option.some.injEq, Prod.mk.injEq] at h
      simp [toList, ← h.1, ← h.2, ← List.reverse_cons, ← hb]

theorem popBack?_eq_none {q : Deque α} : q.popBack? = none ↔ q.toList = [] := by
  obtain ⟨front, back⟩ := q
  cases back with
  | cons b back => simp [popBack?, toList]
  | nil => cases hb : front.reverse <;> simp_all [popBack?, toList]

theorem perm_set {as : List α} {i : Nat} {a : α} (h : as[i]? = some a) (b : α) :
    (a :: as.set i b).Perm (b :: as) := by
  induction as generalizing i with
  | nil => simp at h
  | cons c as ih =>
    cases i with
    | zero =>
      obtain rfl : c = a := by simpa using h
      exact List.Perm.swap b c as
    | succ i =>
      have h' : as[i]? = some a := by simpa using h
      exact (List.Perm.swap c a _).trans (((ih h').cons c).trans (List.Perm.swap b c as))

/-- Taking an element from the middle takes that element and leaves all others. -/
theorem swapRemove?_eq_some {q q' : Deque α} {i : Nat} {a : α}
    (h : q.swapRemove? i = some (a, q')) :
    q.toList[i]? = some a ∧ (a :: q'.toList).Perm q.toList := by
  unfold swapRemove? at h
  split at h
  · next b last rest hi hb =>
    simp only [Option.some.injEq, Prod.mk.injEq] at h
    obtain ⟨rfl, rfl⟩ := h
    have hq := popBack?_eq_some hb
    refine ⟨hi, ?_⟩
    rw [toList_ofList, hq]
    rw [hq] at hi
    refine List.Perm.trans ?_ (List.perm_append_singleton last rest.toList).symm
    by_cases h : i < rest.toList.length
    · rw [List.getElem?_append_left h] at hi
      exact perm_set hi last
    · have hlt : i < (rest.toList ++ [last]).length := (List.getElem?_eq_some_iff.mp hi).1
      have heq : i = rest.toList.length := by
        simp only [List.length_append, List.length_cons, List.length_nil] at hlt
        omega
      obtain rfl : last = b := by simpa [heq] using hi
      rw [List.set_eq_of_length_le (by omega)]
  · simp at h

theorem swapRemove?_eq_none {q : Deque α} {i : Nat} : q.swapRemove? i = none ↔ q.size ≤ i := by
  unfold swapRemove?
  split
  · next a last rest hi hb =>
    have hlt : i < q.toList.length := (List.getElem?_eq_some_iff.mp hi).1
    simp only [length_toList] at hlt
    simp only [reduceCtorEq, false_iff]
    omega
  · next h =>
    simp only [true_iff]
    rw [← length_toList, ← List.getElem?_eq_none_iff]
    cases hi : q.toList[i]? with
    | none => rfl
    | some a =>
      cases hb : q.popBack? with
      | none => simp [popBack?_eq_none.mp hb] at hi
      | some r => exact absurd hb (h a r.1 r.2 hi)

end Deque

end ObjectFlow
