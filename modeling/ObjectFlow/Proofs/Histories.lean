import ObjectFlow.Proofs.Runs

/-!
# Histories of a worklist

A worklist serves requests to push and to pop, and what it has done is written to a log. The law of
a log does not mention the worklist: an object is due at a pointer when it has been pushed for the
pointer and the pointer has not been popped since (`Due`), a pop hands out what is due at its
pointer, and it hands out nothing only when nothing is due (`Answers`). Every worklist keeps to this
law, whatever it is asked for and whichever of the waiting pointers it takes
(`exists_lawful_history`).

A worklist that takes its pointers at random does so by the numbers of a sequence. The law does not
rest on these numbers, so a request may also name the place of the queue that is taken.
-/

namespace ObjectFlow

open Std

theorem ObjectSet.isEmpty_eq_false_iff {s : ObjectSet} : s.isEmpty = false ↔ ∃ o, o ∈ s := by
  rw [← ExtTreeSet.isEmpty_toList, List.isEmpty_eq_false_iff_exists_mem]
  simp only [ExtTreeSet.mem_toList]

namespace Pending

/-! ## Requests -/

/-- What a worklist can be asked for. -/
inductive Request
  | push (p : PointerId) (objects : ObjectSet)
  /-- Without a place the worklist chooses for itself. A place only matters where the choice is
  random, and counts from the front of the queue again when the queue is too short. -/
  | pop (place : Option Nat)

/-- What a worklist has done. -/
inductive Event
  | pushed (p : PointerId) (objects : ObjectSet)
  | popped (p : PointerId) (objects : ObjectSet)
  /-- There was nothing to pop. -/
  | idle

/-- A pop for which a place may have been chosen. -/
def popAt (w : Pending) (place : Option Nat) :
    Except Fault (Option (PointerId × ObjectSet × Pending)) :=
  match w.discipline, place with
  | .random _, some n =>
    match w.takeAt? (n % w.queue.size) with
    | none => return none
    | some (p, w) => do
      let (objects, w) ← w.collect p
      return some (p, objects, w)
  | _, _ => w.pop

/-- The worklist after a request, and what it has done. -/
def serve (w : Pending) : Request → Except Fault (Event × Pending)
  | .push p objects => return (.pushed p objects, w.push p objects)
  | .pop place => do
    match ← w.popAt place with
    | none => return (.idle, w)
    | some (p, objects, w) => return (.popped p objects, w)

/-- The worklist after several requests, and the log of what it has done. -/
def serveAll : Pending → List Request → Except Fault (List Event × Pending)
  | w, [] => return ([], w)
  | w, request :: requests => do
    let (event, w) ← w.serve request
    let (log, w) ← w.serveAll requests
    return (event :: log, w)

/-! ## The law of a log -/

/-- An object has been pushed for a pointer that has not been popped since. -/
def Due (log : List Event) (p : PointerId) (o : ObjId) : Prop :=
  ∃ before objects after, log = before ++ .pushed p objects :: after ∧ o ∈ objects ∧
    ∀ taken, .popped p taken ∉ after

/-- Each push of some objects is followed by a pop of its pointer. -/
def Settled (log : List Event) : Prop :=
  ∀ before p objects after, log = before ++ .pushed p objects :: after →
    objects.isEmpty = false → ∃ taken, .popped p taken ∈ after

/-- What a worklist does is right after what it has done before. -/
def Answers (log : List Event) : Event → Prop
  | .pushed _ _ => True
  | .popped p objects => ¬ Settled log ∧ ∀ o, o ∈ objects ↔ Due log p o
  | .idle => Settled log

/-- All that a worklist has done was right when it was done. -/
def Lawful (log : List Event) : Prop :=
  ∀ before event after, log = before ++ event :: after → Answers before event

variable {log : List Event} {event : Event}

theorem append_singleton_eq {α : Type} {xs before after : List α} {x y : α} :
    xs ++ [x] = before ++ y :: after ↔
      xs = before ∧ x = y ∧ after = [] ∨
        ∃ front, after = front ++ [x] ∧ xs = before ++ y :: front := by
  rcases List.eq_nil_or_concat after with rfl | ⟨front, z, rfl⟩
  · simp
  · rw [List.concat_eq_append, ← List.cons_append, ← List.append_assoc, List.append_singleton_inj]
    constructor
    · rintro ⟨rfl, rfl⟩
      exact Or.inr ⟨front, rfl, rfl⟩
    · rintro (⟨-, -, h⟩ | ⟨front', h, rfl⟩)
      · simp at h
      · obtain ⟨rfl, rfl⟩ := List.append_singleton_inj.1 h
        exact ⟨rfl, rfl⟩

theorem due_concat {p : PointerId} {o : ObjId} :
    Due (log ++ [event]) p o ↔
      Due log p o ∧ (∀ taken, event ≠ .popped p taken) ∨
        ∃ objects, event = .pushed p objects ∧ o ∈ objects := by
  constructor
  · rintro ⟨before, objects, after, heq, ho, hafter⟩
    rcases append_singleton_eq.1 heq with ⟨rfl, rfl, rfl⟩ | ⟨front, rfl, rfl⟩
    · exact Or.inr ⟨objects, rfl, ho⟩
    · refine Or.inl ⟨⟨before, objects, front, rfl, ho, fun taken h => ?_⟩, ?_⟩
      · exact hafter taken (List.mem_append_left _ h)
      · rintro taken rfl
        exact hafter taken (List.mem_append_right _ (List.mem_singleton_self _))
  · rintro (⟨⟨before, objects, after, rfl, ho, hafter⟩, hevent⟩ | ⟨objects, rfl, ho⟩)
    · refine ⟨before, objects, after ++ [event], by simp, ho, fun taken h => ?_⟩
      rcases List.mem_append.1 h with h | h
      · exact hafter taken h
      · exact hevent taken (List.mem_singleton.1 h).symm
    · exact ⟨log, objects, [], rfl, ho, fun _ => List.not_mem_nil⟩

theorem settled_iff : Settled log ↔ ∀ p o, ¬ Due log p o := by
  constructor
  · rintro h p o ⟨before, objects, after, heq, ho, hafter⟩
    have hobjects := ObjectSet.isEmpty_eq_false_iff.2 ⟨o, ho⟩
    obtain ⟨taken, htaken⟩ := h before p objects after heq hobjects
    exact hafter taken htaken
  · intro h before p objects after heq hobjects
    obtain ⟨o, ho⟩ := ObjectSet.isEmpty_eq_false_iff.1 hobjects
    refine Classical.byContradiction fun hnone => h p o ?_
    exact ⟨before, objects, after, heq, ho, fun taken ht => hnone ⟨taken, ht⟩⟩

theorem Lawful.concat (h : Lawful log) (hevent : Answers log event) : Lawful (log ++ [event]) := by
  intro before e after heq
  rcases append_singleton_eq.1 heq with ⟨rfl, rfl, rfl⟩ | ⟨front, rfl, rfl⟩
  · exact hevent
  · exact h before e front rfl

/-! ## One request -/

/-- A worklist is what it should be after what it has done: the queue holds, each once, the pointers
that objects wait for, and those that wait are those that are due. -/
structure Reflects (w : Pending) (log : List Event) : Prop where
  coherent : w.Coherent
  nonempty : ∀ i ∈ w.arrivals, (w.waiting i).isEmpty = false
  mem_waiting : ∀ {i o}, o ∈ w.waiting i ↔ Due log i o

variable {w : Pending}

theorem Reflects.push (h : w.Reflects log) (p : PointerId) (objects : ObjectSet) :
    (w.push p objects).Reflects (log ++ [.pushed p objects]) := by
  refine ⟨h.coherent.push p objects, fun i hi => ?_, fun {i o} => ?_⟩
  · rw [ObjectSet.isEmpty_eq_false_iff]
    simp only [mem_waiting_push]
    cases hobjects : objects.isEmpty with
    | true =>
      rw [Pending.push, if_pos hobjects] at hi
      obtain ⟨o, ho⟩ := ObjectSet.isEmpty_eq_false_iff.1 (h.nonempty i hi)
      exact ⟨o, Or.inl ho⟩
    | false =>
      rcases mem_queue_push (((h.coherent.push p objects).mem_queue i).2 hi) with hi | rfl
      · have hi := (h.coherent.mem_queue i).1 hi
        obtain ⟨o, ho⟩ := ObjectSet.isEmpty_eq_false_iff.1 (h.nonempty i hi)
        exact ⟨o, Or.inl ho⟩
      · obtain ⟨o, ho⟩ := ObjectSet.isEmpty_eq_false_iff.1 hobjects
        exact ⟨o, Or.inr ⟨rfl, ho⟩⟩
  · rw [mem_waiting_push, h.mem_waiting, due_concat]
    simp [and_assoc]

theorem Reflects.takes (h : w.Reflects log) {p : PointerId} {objects : ObjectSet} {rest : Pending}
    (ht : w.Takes p objects rest) : rest.Reflects (log ++ [.popped p objects]) := by
  refine ⟨ht.coherent h.coherent, fun i hi => ?_, fun {i o} => ?_⟩
  · rw [ht.erased, ExtTreeMap.mem_erase] at hi
    obtain ⟨o, ho⟩ := ObjectSet.isEmpty_eq_false_iff.1 (h.nonempty i hi.2)
    refine ObjectSet.isEmpty_eq_false_iff.2 ⟨o, ht.mem_waiting.2 ⟨?_, ho⟩⟩
    simpa using hi.1
  · rw [ht.mem_waiting, h.mem_waiting, due_concat]
    simp [and_comm]

theorem Reflects.idle (h : w.Reflects log) : w.Reflects (log ++ [.idle]) := by
  refine ⟨h.coherent, h.nonempty, fun {i o} => ?_⟩
  rw [h.mem_waiting, due_concat]
  simp

theorem Reflects.answers_popped (h : w.Reflects log) {p : PointerId} {objects : ObjectSet}
    {rest : Pending} (ht : w.Takes p objects rest) : Answers log (.popped p objects) := by
  have hobjects : ∀ o, o ∈ objects ↔ Due log p o := by
    intro o
    rw [ht.objects_eq, h.mem_waiting]
  refine ⟨fun hsettled => ?_, hobjects⟩
  have hp : p ∈ w.arrivals := ExtTreeMap.mem_iff_isSome_getElem?.2 (by rw [ht.found]; rfl)
  obtain ⟨o, ho⟩ := ObjectSet.isEmpty_eq_false_iff.1 (h.nonempty p hp)
  exact settled_iff.1 hsettled p o (h.mem_waiting.1 ho)

theorem Reflects.answers_idle (h : w.Reflects log) (hempty : w.isEmpty = true) :
    Answers log .idle :=
  settled_iff.2 fun p o hdue =>
    not_mem_waiting_of_isEmpty h.coherent hempty p o (h.mem_waiting.2 hdue)

/-- A pop takes some waiting pointer if there is one. -/
theorem Coherent.popAt_cases (hw : w.Coherent) (place : Option Nat) :
    w.isEmpty = true ∧ w.popAt place = .ok none ∨
      ∃ p objects rest, w.popAt place = .ok (some (p, objects, rest)) ∧
        w.Takes p objects rest := by
  unfold popAt
  split
  · split
    · next hnone => exact Or.inl ⟨isEmpty_of_takeAt?_mod hnone, rfl⟩
    · next p w' hsome =>
      obtain ⟨ha, hp⟩ := takeAt?_eq_some hsome
      obtain ⟨objects, rest, hcollect, ht⟩ := hw.exists_collect ha hp
      exact Or.inr ⟨p, objects, rest, by rw [hcollect]; rfl, ht⟩
  · cases hempty : w.isEmpty with
    | true => exact Or.inl ⟨rfl, by rw [pop, next?_of_isEmpty hempty]⟩
    | false =>
      obtain ⟨p, objects, rest, hpop⟩ := hw.exists_pop hempty
      exact Or.inr ⟨p, objects, rest, hpop, pop_takes hpop⟩

/-- Every request is served, and rightly. -/
theorem Reflects.serve (h : w.Reflects log) (request : Request) :
    ∃ event w', w.serve request = .ok (event, w') ∧ Answers log event ∧
      w'.Reflects (log ++ [event]) := by
  cases request with
  | push p objects => exact ⟨.pushed p objects, w.push p objects, rfl, trivial, h.push p objects⟩
  | pop place =>
    rcases h.coherent.popAt_cases place with ⟨hempty, hpop⟩ | ⟨p, objects, rest, hpop, ht⟩
    · refine ⟨.idle, w, ?_, h.answers_idle hempty, h.idle⟩
      simp only [Pending.serve, hpop]
      rfl
    · refine ⟨.popped p objects, rest, ?_, h.answers_popped ht, h.takes ht⟩
      simp only [Pending.serve, hpop]
      rfl

/-! ## All requests -/

theorem Reflects.serveAll (requests : List Request) (h : w.Reflects log) (hlog : Lawful log) :
    ∃ more w', w.serveAll requests = .ok (more, w') ∧ Lawful (log ++ more) ∧
      w'.Reflects (log ++ more) := by
  induction requests generalizing w log with
  | nil => exact ⟨[], w, rfl, by rwa [List.append_nil], by rwa [List.append_nil]⟩
  | cons request requests ih =>
    obtain ⟨event, w₁, hserve, hanswers, h₁⟩ := h.serve request
    obtain ⟨more, w', hrest, hlawful, h'⟩ := ih h₁ (hlog.concat hanswers)
    rw [List.append_assoc] at hlawful h'
    refine ⟨event :: more, w', ?_, hlawful, h'⟩
    rw [Pending.serveAll, hserve]
    show (do let (log, w) ← w₁.serveAll requests; return (event :: log, w)) = _
    rw [hrest]
    rfl

theorem reflects_empty (discipline : Discipline) : (empty discipline).Reflects [] := by
  refine ⟨PointsTo.State.coherent_empty, fun i hi => ?_, fun {i o} => ?_⟩
  · exact absurd hi ExtTreeMap.not_mem_empty
  · have hwaiting : o ∉ (empty discipline).waiting i :=
      not_mem_waiting_of_isEmpty PointsTo.State.coherent_empty rfl i o
    have hdue : ¬ Due [] i o := by
      rintro ⟨before, objects, after, heq, -⟩
      simp at heq
    exact iff_of_false hwaiting hdue

/-- Whatever a new worklist is asked for, it serves all of it. Each pop hands out what has been
pushed for its pointer since the pointer was last popped, and nothing when all has been popped. -/
theorem exists_lawful_history (discipline : Discipline) (requests : List Request) :
    ∃ log w, (empty discipline).serveAll requests = .ok (log, w) ∧ Lawful log ∧
      w.Reflects log := by
  have hnil : Lawful [] := fun before event after h => by simp at h
  exact (reflects_empty discipline).serveAll requests hnil

end Pending

end ObjectFlow
