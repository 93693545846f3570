import ObjectFlow.Collection.Deque
import ObjectFlow.Order

/-!
# Agendas

A queue that holds each of its members once: what is already waiting is not queued again.
-/

namespace ObjectFlow

open Std

/-- A queue without repetitions. -/
structure Agenda (α : Type) [Keyed α] where
  queue : Deque α
  /-- The members of the queue. -/
  waiting : ExtTreeSet α
  mem_waiting : ∀ a : α, a ∈ waiting ↔ a ∈ queue.toList
  nodup : queue.toList.Nodup

namespace Agenda

variable {α : Type} [Keyed α]

def empty : Agenda α := ⟨∅, ∅, by simp, by simp⟩

instance : EmptyCollection (Agenda α) := ⟨empty⟩

instance : Inhabited (Agenda α) := ⟨empty⟩

/-- The members from the next one on. -/
def toList (q : Agenda α) : List α := q.queue.toList

/-- Add a member at the end unless it is waiting already. -/
def push (q : Agenda α) (a : α) : Agenda α :=
  if h : a ∈ q.waiting then q
  else
    { queue := q.queue.push a
      waiting := q.waiting.insert a
      mem_waiting := fun b => by
        rw [ExtTreeSet.mem_insert, LawfulEqOrd.compare_eq_iff_eq, q.mem_waiting, Deque.toList_push,
          List.mem_append, List.mem_singleton, or_comm, @eq_comm α a b]
      nodup := by
        rw [q.mem_waiting] at h
        simp only [Deque.toList_push, List.nodup_append, q.nodup, List.nodup_cons,
          List.not_mem_nil, not_false_eq_true, List.nodup_nil, and_self, List.mem_cons, or_false,
          true_and]
        exact fun b hb c hc => fun hbc => h (hc ▸ hbc ▸ hb) }

def pushMany (q : Agenda α) (as : List α) : Agenda α := as.foldl push q

def ofList (as : List α) : Agenda α := pushMany ∅ as

/-- The next member and the agenda without it. -/
def pop? (q : Agenda α) : Option (α × Agenda α) :=
  match h : q.queue.popFront? with
  | none => none
  | some (a, rest) =>
    have hq : q.queue.toList = a :: rest.toList := Deque.popFront?_eq_some h
    have hn : a ∉ rest.toList ∧ rest.toList.Nodup := by simpa [hq] using q.nodup
    some (a,
      { queue := rest
        waiting := q.waiting.erase a
        mem_waiting := fun b => by
          rw [ExtTreeSet.mem_erase, q.mem_waiting, hq, List.mem_cons]
          by_cases hab : a = b
          · subst hab
            simp [hn.1]
          · simp [hab, Ne.symm hab]
        nodup := hn.2 })

/-! ## The list view -/

@[simp] theorem toList_empty : (∅ : Agenda α).toList = [] := rfl

theorem toList_push (q : Agenda α) (a : α) [Decidable (a ∈ q.toList)] :
    (q.push a).toList = if a ∈ q.toList then q.toList else q.toList ++ [a] := by
  unfold push
  split
  · next h =>
    have h' := h
    rw [q.mem_waiting] at h'
    simp [toList, h']
  · next h =>
    have h' := h
    rw [q.mem_waiting] at h'
    simp [toList, h']

theorem pop?_eq_some {q q' : Agenda α} {a : α} (h : q.pop? = some (a, q')) :
    q.toList = a :: q'.toList := by
  unfold pop? at h
  split at h
  · simp at h
  · next hp =>
    simp only [Option.some.injEq, Prod.mk.injEq] at h
    rw [toList, Deque.popFront?_eq_some hp, h.1, ← h.2]
    rfl

theorem pop?_eq_none {q : Agenda α} : q.pop? = none ↔ q.toList = [] := by
  unfold pop?
  split
  · next h => simpa [toList] using Deque.popFront?_eq_none.1 h
  · next h => simp [toList, Deque.popFront?_eq_some h]

end Agenda

end ObjectFlow
