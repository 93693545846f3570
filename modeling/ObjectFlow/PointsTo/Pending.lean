import ObjectFlow.Collection.Deque
import ObjectFlow.Fault
import ObjectFlow.PointsTo.ObjectSet

/-!
# Pending objects

Objects that are on their way to a pointer wait in a queue of pointers. Objects that arrive while
their pointer is waiting join those already there, so a pointer waits only once. The order in which
pointers are taken is free, because no order changes the outcome of an analysis. Where the order is
random, the random numbers are given from outside.
-/

namespace ObjectFlow

open Std

/-- Which of the waiting pointers is taken next. -/
inductive Discipline
  /-- The one that has waited longest. -/
  | fifo
  /-- The one that came last. -/
  | lifo
  /-- Any: one choice after the other is made by the numbers of a sequence. -/
  | random (numbers : Nat → Nat)
deriving Inhabited

/-- Waiting pointers, and the objects that wait for each of them. -/
structure Pending where
  discipline : Discipline
  /-- How many choices have been made at random. -/
  drawn : Nat := 0
  queue : Deque PointerId := ∅
  /-- The objects on their way to each waiting pointer. -/
  arrivals : ExtTreeMap PointerId ObjectSet := ∅
deriving Inhabited

namespace Pending

/-- Nothing waits, and pointers will be taken in a given order. -/
def empty (discipline : Discipline) : Pending := { discipline }

/-- Let objects wait for a pointer. Where there are none, nothing changes. -/
def push (w : Pending) (p : PointerId) (objects : ObjectSet) : Pending :=
  if objects.isEmpty then w
  else
    match w.arrivals[p]? with
    | some waiting => { w with arrivals := w.arrivals.insert p (waiting ∪ objects) }
    | none => { w with arrivals := w.arrivals.insert p objects, queue := w.queue.push p }

/-- The pointer at a place of the queue, and what is left without it. The objects stay, and the last
pointer of the queue moves to the free place. -/
def takeAt? (w : Pending) (i : Nat) : Option (PointerId × Pending) :=
  (w.queue.swapRemove? i).map fun (p, queue) => (p, { w with queue })

/-- The waiting pointer that comes next, and what is left without it. The objects stay. -/
def next? (w : Pending) : Option (PointerId × Pending) :=
  match w.discipline with
  | .fifo => w.queue.popFront?.map fun (p, queue) => (p, { w with queue })
  | .lifo => w.queue.popBack?.map fun (p, queue) => (p, { w with queue })
  | .random numbers =>
    { w with drawn := w.drawn + 1 }.takeAt? (numbers w.drawn % w.queue.size)

/-- The objects that wait for a pointer, and what is left without them. -/
def collect (w : Pending) (p : PointerId) : Except Fault (ObjectSet × Pending) :=
  match w.arrivals[p]? with
  | some objects => .ok (objects, { w with arrivals := w.arrivals.erase p })
  | none => .error (.nothingPending p)

/-- The next pointer with the objects that wait for it, and what is left without them. -/
def pop (w : Pending) : Except Fault (Option (PointerId × ObjectSet × Pending)) :=
  match w.next? with
  | none => .ok none
  | some (p, w) => do
    let (objects, w) ← w.collect p
    return some (p, objects, w)

/-- The next pointers with the objects that wait for them, at most `n` of them. -/
def take : (n : Nat) → Pending → Except Fault (List (PointerId × ObjectSet) × Pending)
  | 0, w => return ([], w)
  | n + 1, w => do
    match ← w.pop with
    | none => return ([], w)
    | some (p, objects, w) =>
      let (rest, w) ← take n w
      return ((p, objects) :: rest, w)

def size (w : Pending) : Nat := w.queue.size

def isEmpty (w : Pending) : Bool := w.queue.isEmpty

end Pending

end ObjectFlow
