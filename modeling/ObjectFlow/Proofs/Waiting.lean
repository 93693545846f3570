import ObjectFlow.PointsTo.Pending

/-!
# What waits for a pointer

`Pending.waiting` is the one view of a worklist: the objects on their way to each pointer. `push`
adds to it, and taking a pointer removes what waits for that pointer and nothing else. `Takes`
leaves open which pointer is taken and how the others are arranged afterwards, so whatever is proved
from it holds for every discipline; `pop_takes` says that `pop` is one way to take a pointer.
-/

namespace ObjectFlow

open Std

theorem ObjectSet.mem_union {s t : ObjectSet} {o : ObjId} : o ∈ s ∪ t ↔ o ∈ s ∨ o ∈ t :=
  ExtTreeSet.mem_union_iff

theorem ObjectSet.mem_diff {s t : ObjectSet} {o : ObjId} : o ∈ s \ t ↔ o ∈ s ∧ o ∉ t :=
  ExtTreeSet.mem_diff_iff

namespace Pending

/-- The objects that wait for a pointer. -/
def waiting (w : Pending) (i : PointerId) : ObjectSet := w.arrivals.getD i ∅

/-- The queue holds, each once, the pointers that objects wait for. -/
structure Coherent (w : Pending) : Prop where
  nodup : w.queue.toList.Nodup
  mem_queue : ∀ i, i ∈ w.queue.toList ↔ i ∈ w.arrivals

/-- A waiting pointer is taken from the queue together with the objects that wait for it. -/
structure Takes (w : Pending) (i : PointerId) (objects : ObjectSet) (rest : Pending) : Prop where
  found : w.arrivals[i]? = some objects
  erased : rest.arrivals = w.arrivals.erase i
  perm : (i :: rest.queue.toList).Perm w.queue.toList

variable {w : Pending}

/-! ## Pushing -/

theorem mem_waiting_push {i j : PointerId} {objects : ObjectSet} {o : ObjId} :
    o ∈ (w.push i objects).waiting j ↔ o ∈ w.waiting j ∨ i = j ∧ o ∈ objects := by
  unfold push
  split
  · next h =>
    rw [ExtTreeSet.isEmpty_iff] at h
    subst h
    simp
  · split
    · next old hold =>
      show o ∈ (w.arrivals.insert i (old ∪ objects)).getD j ∅ ↔ _
      rw [ExtTreeMap.getD_insert]
      simp only [LawfulEqOrd.compare_eq_iff_eq]
      by_cases h : i = j
      · subst h
        rw [if_pos rfl, ObjectSet.mem_union, waiting, ExtTreeMap.getD_eq_getD_getElem?, hold]
        simp
      · rw [if_neg h]
        simp [waiting, h]
    · next hnone =>
      show o ∈ (w.arrivals.insert i objects).getD j ∅ ↔ _
      rw [ExtTreeMap.getD_insert]
      simp only [LawfulEqOrd.compare_eq_iff_eq]
      by_cases h : i = j
      · subst h
        rw [if_pos rfl, waiting, ExtTreeMap.getD_eq_getD_getElem?, hnone]
        simp
      · rw [if_neg h]
        simp [waiting, h]

theorem Coherent.push (hw : w.Coherent) (i : PointerId) (objects : ObjectSet) :
    (w.push i objects).Coherent := by
  unfold Pending.push
  split
  · exact hw
  · split
    · next old hold =>
      have hi : i ∈ w.arrivals := ExtTreeMap.mem_iff_isSome_getElem?.2 (by rw [hold]; rfl)
      refine ⟨hw.nodup, fun j => ?_⟩
      rw [ExtTreeMap.mem_insert, LawfulEqOrd.compare_eq_iff_eq]
      show j ∈ w.queue.toList ↔ _
      rw [hw.mem_queue]
      constructor
      · exact Or.inr
      · rintro (rfl | h)
        · exact hi
        · exact h
    · next hnone =>
      have hi : i ∉ w.arrivals := by
        rw [ExtTreeMap.mem_iff_isSome_getElem?, hnone]
        simp
      constructor
      · show (w.queue.push i).toList.Nodup
        rw [Deque.toList_push, List.nodup_append]
        refine ⟨hw.nodup, by simp, fun j hj k hk => ?_⟩
        rintro rfl
        exact hi ((hw.mem_queue i).1 (List.mem_singleton.1 hk ▸ hj))
      · intro j
        show j ∈ (w.queue.push i).toList ↔ _
        rw [ExtTreeMap.mem_insert, LawfulEqOrd.compare_eq_iff_eq, Deque.toList_push,
          List.mem_append, hw.mem_queue, List.mem_singleton, or_comm, @eq_comm _ j i]

theorem mem_queue_push {i j : PointerId} {objects : ObjectSet}
    (h : j ∈ (w.push i objects).queue.toList) : j ∈ w.queue.toList ∨ j = i := by
  unfold push at h
  split at h
  · exact Or.inl h
  · split at h
    · exact Or.inl h
    · simpa using h

/-- Sending the same objects to several pointers adds them to each of these. -/
theorem mem_waiting_foldl_push {objects : ObjectSet} {o : ObjId} {j : PointerId} :
    ∀ {targets : List PointerId} {w : Pending},
      o ∈ (targets.foldl (fun w q => w.push q objects) w).waiting j ↔
        o ∈ w.waiting j ∨ j ∈ targets ∧ o ∈ objects
  | [], w => by simp
  | q :: targets, w => by
    show o ∈ (targets.foldl _ (w.push q objects)).waiting j ↔ _
    rw [mem_waiting_foldl_push, mem_waiting_push, List.mem_cons]
    constructor
    · rintro ((h | ⟨rfl, h⟩) | ⟨ht, h⟩)
      · exact Or.inl h
      · exact Or.inr ⟨Or.inl rfl, h⟩
      · exact Or.inr ⟨Or.inr ht, h⟩
    · rintro (h | ⟨rfl | ht, h⟩)
      · exact Or.inl (Or.inl h)
      · exact Or.inl (Or.inr ⟨rfl, h⟩)
      · exact Or.inr ⟨ht, h⟩

theorem Coherent.foldl_push {objects : ObjectSet} :
    ∀ (targets : List PointerId) {w : Pending}, w.Coherent →
      (targets.foldl (fun w q => w.push q objects) w).Coherent
  | [], _, hw => hw
  | q :: targets, _, hw => Coherent.foldl_push targets (hw.push q objects)

theorem mem_queue_foldl_push {objects : ObjectSet} {j : PointerId} :
    ∀ (targets : List PointerId) {w : Pending},
      j ∈ (targets.foldl (fun w q => w.push q objects) w).queue.toList →
        j ∈ w.queue.toList ∨ j ∈ targets
  | [], _, h => Or.inl h
  | q :: targets, _, h => by
    rcases mem_queue_foldl_push targets h with h | h
    · rcases mem_queue_push h with h | rfl
      · exact Or.inl h
      · exact Or.inr List.mem_cons_self
    · exact Or.inr (List.mem_cons_of_mem _ h)

/-! ## Taking -/

theorem Takes.objects_eq {i : PointerId} {objects : ObjectSet} {rest : Pending}
    (h : w.Takes i objects rest) : objects = w.waiting i := by
  rw [waiting, ExtTreeMap.getD_eq_getD_getElem?, h.found]
  rfl

theorem Takes.mem_waiting {i j : PointerId} {objects : ObjectSet} {rest : Pending} {o : ObjId}
    (h : w.Takes i objects rest) : o ∈ rest.waiting j ↔ i ≠ j ∧ o ∈ w.waiting j := by
  unfold waiting
  rw [h.erased, ExtTreeMap.getD_erase]
  simp only [LawfulEqOrd.compare_eq_iff_eq]
  by_cases hij : i = j
  · simp [hij]
  · simp [hij]

theorem Takes.coherent {i : PointerId} {objects : ObjectSet} {rest : Pending}
    (h : w.Takes i objects rest) (hw : w.Coherent) : rest.Coherent := by
  have hn : (i :: rest.queue.toList).Nodup := h.perm.nodup_iff.2 hw.nodup
  obtain ⟨hi, hrest⟩ := List.nodup_cons.1 hn
  refine ⟨hrest, fun j => ?_⟩
  have hj : j ∈ i :: rest.queue.toList ↔ j ∈ w.arrivals := by
    rw [h.perm.mem_iff, hw.mem_queue]
  rw [h.erased, ExtTreeMap.mem_erase, ← hj, List.mem_cons]
  by_cases hij : i = j
  · subst hij
    simp [hi]
  · simp [hij, Ne.symm hij]

theorem not_mem_waiting_of_isEmpty (hw : w.Coherent) (h : w.isEmpty = true) (i : PointerId)
    (o : ObjId) : o ∉ w.waiting i := by
  have hi : i ∉ w.arrivals := by
    rw [← hw.mem_queue, Deque.isEmpty_iff.1 h]
    simp
  rw [waiting, ExtTreeMap.getD_eq_fallback hi]
  exact ExtTreeSet.not_mem_empty

/-! ## Disciplines -/

theorem takeAt?_eq_some {n : Nat} {i : PointerId} {rest : Pending}
    (h : w.takeAt? n = some (i, rest)) :
    rest.arrivals = w.arrivals ∧ (i :: rest.queue.toList).Perm w.queue.toList := by
  obtain ⟨⟨j, q⟩, hq, he⟩ := Option.map_eq_some_iff.1 h
  cases he
  exact ⟨rfl, (Deque.swapRemove?_eq_some hq).2⟩

/-- A place that is counted within the queue is a place of the queue. -/
theorem isEmpty_of_takeAt?_mod {n : Nat} (h : w.takeAt? (n % w.queue.size) = none) :
    w.isEmpty = true := by
  have hs : w.queue.size ≤ n % w.queue.size :=
    Deque.swapRemove?_eq_none.1 (Option.map_eq_none_iff.1 h)
  rw [isEmpty, Deque.isEmpty_iff, ← List.length_eq_zero_iff, Deque.length_toList]
  rcases Nat.eq_zero_or_pos w.queue.size with h0 | h0
  · exact h0
  · exact absurd (Nat.mod_lt n h0) (Nat.not_lt.2 hs)

theorem next?_eq_some {i : PointerId} {rest : Pending} (h : w.next? = some (i, rest)) :
    rest.arrivals = w.arrivals ∧ (i :: rest.queue.toList).Perm w.queue.toList := by
  unfold next? at h
  split at h
  · obtain ⟨⟨j, q⟩, hq, he⟩ := Option.map_eq_some_iff.1 h
    cases he
    exact ⟨rfl, by rw [Deque.popFront?_eq_some hq]⟩
  · obtain ⟨⟨j, q⟩, hq, he⟩ := Option.map_eq_some_iff.1 h
    cases he
    refine ⟨rfl, ?_⟩
    rw [Deque.popBack?_eq_some hq]
    exact (List.perm_append_singleton _ _).symm
  · exact takeAt?_eq_some (w := { w with drawn := w.drawn + 1 }) h

theorem next?_eq_none (h : w.next? = none) : w.isEmpty = true := by
  unfold next? at h
  split at h
  · exact Deque.isEmpty_iff.2 (Deque.popFront?_eq_none.1 (Option.map_eq_none_iff.1 h))
  · exact Deque.isEmpty_iff.2 (Deque.popBack?_eq_none.1 (Option.map_eq_none_iff.1 h))
  · have hqueue : w.queue.isEmpty = true :=
      isEmpty_of_takeAt?_mod (w := { w with drawn := w.drawn + 1 }) h
    exact hqueue

theorem next?_of_isEmpty (h : w.isEmpty = true) : w.next? = none := by
  have hempty : w.queue.toList = [] := Deque.isEmpty_iff.1 h
  have hsize : w.queue.size = 0 := by rw [← Deque.length_toList, hempty, List.length_nil]
  unfold next?
  split
  · rw [Deque.popFront?_eq_none.2 hempty, Option.map_none]
  · rw [Deque.popBack?_eq_none.2 hempty, Option.map_none]
  · next numbers _ =>
    have hnone := Deque.swapRemove?_eq_none.2
      (show w.queue.size ≤ numbers w.drawn % w.queue.size by rw [hsize]; exact Nat.zero_le _)
    exact Option.map_eq_none_iff.2 hnone

theorem pop_takes {i : PointerId} {objects : ObjectSet} {rest : Pending}
    (h : w.pop = .ok (some (i, objects, rest))) : w.Takes i objects rest := by
  unfold pop at h
  split at h
  · cases h
  · next j w' hn =>
    obtain ⟨ha, hp⟩ := next?_eq_some hn
    unfold collect at h
    split at h
    · next found hf =>
      cases h
      exact ⟨by rw [← ha]; exact hf, by rw [← ha], hp⟩
    · cases h

/-- Each pointer in the queue can be taken next. -/
theorem Coherent.exists_takes (hw : w.Coherent) {i : PointerId} (hi : i ∈ w.queue.toList) :
    ∃ objects rest, w.Takes i objects rest := by
  have harrivals := (hw.mem_queue i).1 hi
  obtain ⟨objects, ho⟩ :=
    Option.isSome_iff_exists.1 (ExtTreeMap.mem_iff_isSome_getElem?.1 harrivals)
  refine ⟨objects, { w with
    queue := .ofList (w.queue.toList.erase i), arrivals := w.arrivals.erase i }, ho, rfl, ?_⟩
  rw [Deque.toList_ofList]
  exact (List.perm_cons_erase hi).symm

/-- The objects that wait for a pointer are found after it has left the queue. -/
theorem Coherent.exists_collect (hw : w.Coherent) {i : PointerId} {w' : Pending}
    (ha : w'.arrivals = w.arrivals) (hp : (i :: w'.queue.toList).Perm w.queue.toList) :
    ∃ objects rest, w'.collect i = .ok (objects, rest) ∧ w.Takes i objects rest := by
  have hi : i ∈ w.arrivals := (hw.mem_queue i).1 (hp.mem_iff.1 List.mem_cons_self)
  obtain ⟨objects, ho⟩ := Option.isSome_iff_exists.1 (ExtTreeMap.mem_iff_isSome_getElem?.1 hi)
  refine ⟨objects, { w' with arrivals := w'.arrivals.erase i }, ?_, ho, by rw [← ha], hp⟩
  simp only [collect, ha, ho]

/-- What is queued can be taken, whatever the discipline. -/
theorem Coherent.exists_pop (hw : w.Coherent) (h : w.isEmpty = false) :
    ∃ i objects rest, w.pop = .ok (some (i, objects, rest)) := by
  cases hn : w.next? with
  | none =>
    rw [next?_eq_none hn] at h
    cases h
  | some r =>
    obtain ⟨i, w'⟩ := r
    obtain ⟨ha, hp⟩ := next?_eq_some hn
    obtain ⟨objects, rest, hcollect, -⟩ := hw.exists_collect ha hp
    refine ⟨i, objects, rest, ?_⟩
    unfold pop
    rw [hn]
    simp only [hcollect]
    rfl

end Pending

end ObjectFlow
