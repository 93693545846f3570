import ObjectFlow.PointsTo.State
import ObjectFlow.Proofs.Waiting

/-!
# An analysis only grows

Numbers keep their meaning and nothing that has been found is lost. `Arena.Extends` and
`State.Extends` order arenas and states by what they hold. The operations on a state that come
before objects arrive make connections and send objects on their way, but leave every points-to set
as it is: such a change is a `State.Prepares`, and changes of this kind can be chained.

The flow is balanced (`State.Balanced`) when whatever a pointer has is also known to each pointer
that it flows to, be it that the objects have arrived there or that they are still waiting.
-/

namespace ObjectFlow

open Std

/-! ## Rosters -/

namespace Roster

variable {α : Type} [Keyed α] {r : Roster α}

theorem get?_inj {a : α} {i j : Nat} (hi : r.get? i = some a) (hj : r.get? j = some a) : i = j := by
  rw [← indexOf?_eq_some_iff] at hi hj
  rw [hi] at hj
  exact Option.some.inj hj

theorem get?_insert (a : α) (i : Nat) :
    (r.insert a).get? i = if r.contains a = false ∧ i = r.size then some a else r.get? i := by
  have hsize : r.toList.length = r.size := by simp [toList, size]
  rw [get?_eq_getElem?, toList_insert]
  by_cases h : r.contains a = true
  · rw [if_pos h, if_neg (by simp [h]), get?_eq_getElem?]
  · have h' : r.contains a = false := by simpa using h
    rw [if_neg h, List.getElem?_append, hsize, get?_eq_getElem?]
    rcases Nat.lt_trichotomy i r.size with hlt | rfl | hgt
    · rw [if_pos hlt, if_neg (by omega)]
    · rw [if_neg (by omega), if_pos ⟨h', rfl⟩]
      simp
    · rw [if_neg (by omega), if_neg (by omega), List.getElem?_eq_none (by simp; omega),
        List.getElem?_eq_none (by omega)]

theorem get?_insert_of_get? {a b : α} {i : Nat} (h : r.get? i = some b) :
    (r.insert a).get? i = some b := by
  rw [get?_insert, if_neg, h]
  rintro ⟨-, rfl⟩
  have hlt := (Array.getElem?_eq_some_iff.1 h).1
  exact Nat.lt_irrefl _ hlt

/-- A member of a roster after an insertion was there before or is the new one. -/
theorem get?_insert_cases {a b : α} {i : Nat} (h : (r.insert a).get? i = some b) :
    r.get? i = some b ∨ i = (r.indexOf? a).getD r.size := by
  rw [get?_insert] at h
  split at h
  · next hi =>
    right
    rw [contains, Option.isSome_eq_false_iff, Option.isNone_iff_eq_none] at hi
    rw [hi.1, hi.2]
    rfl
  · exact Or.inl h

/-- The number of a value leads back to the value. -/
theorem get?_number (a : α) : (r.insert a).get? ((r.indexOf? a).getD r.size) = some a := by
  cases h : r.indexOf? a with
  | some i => exact get?_insert_of_get? (indexOf?_eq_some_iff.1 h)
  | none =>
    rw [get?_insert, if_pos ⟨by simp [contains, h], rfl⟩]

end Roster

/-! ## Arenas -/

namespace Arena

variable {a b c : Arena}

theorem context_eq_ok {i : ContextId} {x : Context} :
    a.context i = .ok x ↔ a.contexts.get? i.index = some x := orUnknown_eq_ok

theorem object_eq_ok {i : ObjId} {x : AbstractObject} :
    a.object i = .ok x ↔ a.objects.get? i.index = some x := orUnknown_eq_ok

theorem pointer_eq_ok {i : PointerId} {x : Pointer} :
    a.pointer i = .ok x ↔ a.pointers.get? i.index = some x := orUnknown_eq_ok

theorem context_inj {i j : ContextId} {x : Context} (hi : a.context i = .ok x)
    (hj : a.context j = .ok x) : i = j := by
  cases i
  cases j
  exact congrArg Id.mk (Roster.get?_inj (context_eq_ok.1 hi) (context_eq_ok.1 hj))

theorem object_inj {i j : ObjId} {x : AbstractObject} (hi : a.object i = .ok x)
    (hj : a.object j = .ok x) : i = j := by
  cases i
  cases j
  exact congrArg Id.mk (Roster.get?_inj (object_eq_ok.1 hi) (object_eq_ok.1 hj))

theorem pointer_inj {i j : PointerId} {x : Pointer} (hi : a.pointer i = .ok x)
    (hj : a.pointer j = .ok x) : i = j := by
  cases i
  cases j
  exact congrArg Id.mk (Roster.get?_inj (pointer_eq_ok.1 hi) (pointer_eq_ok.1 hj))

theorem pointerId?_eq_some {i : PointerId} {x : Pointer} :
    a.pointerId? x = some i ↔ a.pointer i = .ok x := by
  rw [pointer_eq_ok, pointerId?, Option.map_eq_some_iff]
  constructor
  · rintro ⟨j, hj, rfl⟩
    exact Roster.indexOf?_eq_some_iff.1 hj
  · intro h
    exact ⟨i.index, Roster.indexOf?_eq_some_iff.2 h, rfl⟩

/-- Whatever one arena numbers the other numbers in the same way. -/
structure Extends (a b : Arena) : Prop where
  context : ∀ {i x}, a.context i = .ok x → b.context i = .ok x
  object : ∀ {i x}, a.object i = .ok x → b.object i = .ok x
  pointer : ∀ {i x}, a.pointer i = .ok x → b.pointer i = .ok x

theorem Extends.refl (a : Arena) : a.Extends a := ⟨id, id, id⟩

theorem Extends.trans (hab : a.Extends b) (hbc : b.Extends c) : a.Extends c :=
  ⟨fun h => hbc.context (hab.context h), fun h => hbc.object (hab.object h),
    fun h => hbc.pointer (hab.pointer h)⟩

theorem contextId_extends (a : Arena) (x : Context) : a.Extends (a.contextId x).2 :=
  ⟨fun h => context_eq_ok.2 (Roster.get?_insert_of_get? (context_eq_ok.1 h)), id, id⟩

theorem objectId_extends (a : Arena) (x : AbstractObject) : a.Extends (a.objectId x).2 :=
  ⟨id, fun h => object_eq_ok.2 (Roster.get?_insert_of_get? (object_eq_ok.1 h)), id⟩

theorem context_contextId (a : Arena) (x : Context) :
    (a.contextId x).2.context (a.contextId x).1 = .ok x :=
  context_eq_ok.2 (Roster.get?_number x)

theorem object_objectId (a : Arena) (x : AbstractObject) :
    (a.objectId x).2.object (a.objectId x).1 = .ok x :=
  object_eq_ok.2 (Roster.get?_number x)

theorem addPointer_pointers (a : Arena) (x : Pointer) :
    (a.addPointer x).pointers = a.pointers.insert x := by
  unfold addPointer
  split
  · next h => exact (Roster.insert_of_contains h).symm
  · rfl

theorem addPointer_contexts (a : Arena) (x : Pointer) :
    (a.addPointer x).contexts = a.contexts := by
  unfold addPointer
  split <;> rfl

theorem addPointer_objects (a : Arena) (x : Pointer) : (a.addPointer x).objects = a.objects := by
  unfold addPointer
  split <;> rfl

theorem pointerId_extends (a : Arena) (x : Pointer) : a.Extends (a.pointerId x).2 := by
  refine ⟨fun h => ?_, fun h => ?_, fun h => ?_⟩
  · show (a.addPointer x).context _ = _
    rw [context_eq_ok, addPointer_contexts]
    exact context_eq_ok.1 h
  · show (a.addPointer x).object _ = _
    rw [object_eq_ok, addPointer_objects]
    exact object_eq_ok.1 h
  · show (a.addPointer x).pointer _ = _
    rw [pointer_eq_ok, addPointer_pointers]
    exact Roster.get?_insert_of_get? (pointer_eq_ok.1 h)

theorem pointer_pointerId (a : Arena) (x : Pointer) :
    (a.pointerId x).2.pointer (a.pointerId x).1 = .ok x := by
  show (a.addPointer x).pointer ((a.pointerId? x).getD ⟨a.pointers.size⟩) = _
  rw [pointer_eq_ok, addPointer_pointers, ← Roster.get?_number (r := a.pointers) x]
  unfold pointerId?
  cases a.pointers.indexOf? x <;> rfl

/-- A new pointer points to nothing. -/
theorem objectsOf_pointerId (a : Arena) (x : Pointer) (i : PointerId) :
    (a.pointerId x).2.objectsOf i = a.objectsOf i := by
  show (a.addPointer x).objectsOf i = _
  unfold addPointer
  split
  · rfl
  · simp only [objectsOf, Array.getElem?_push]
    split
    · next h => rw [h, Array.getElem?_eq_none (by omega)]; rfl
    · rfl

theorem index_lt_of_pointer {i : PointerId} {x : Pointer} (h : a.pointer i = .ok x) :
    i.index < a.sets.size := by
  rw [a.size_sets]
  exact (Array.getElem?_eq_some_iff.1 (pointer_eq_ok.1 h)).1

/-- Only pointers of the arena point to anything. -/
theorem exists_pointer_of_mem {i : PointerId} {o : ObjId} (h : o ∈ a.objectsOf i) :
    ∃ x, a.pointer i = .ok x := by
  have hlt : i.index < a.pointers.items.size := by
    refine Nat.lt_of_not_le fun hle => ?_
    have hnone : a.sets[i.index]? = none := Array.getElem?_eq_none (by rw [a.size_sets]; exact hle)
    rw [objectsOf, hnone] at h
    exact ExtTreeSet.not_mem_empty h
  exact ⟨_, pointer_eq_ok.2 (Array.getElem?_eq_getElem hlt)⟩

theorem mem_objectsOf_grow {i j : PointerId} {x : Pointer} (hi : a.pointer i = .ok x)
    {new : ObjectSet} {o : ObjId} :
    o ∈ (a.grow i new).objectsOf j ↔ o ∈ a.objectsOf j ∨ i = j ∧ o ∈ new := by
  have hlt := index_lt_of_pointer hi
  obtain ⟨i⟩ := i
  obtain ⟨j⟩ := j
  simp only [objectsOf, grow, Array.getElem?_modify, Id.mk.injEq]
  by_cases h : i = j
  · subst h
    simp only [Array.getElem?_eq_getElem hlt, if_true, Option.map_some, Option.getD_some,
      ObjectSet.mem_union, true_and]
  · simp [h]

theorem grow_extends (a : Arena) (i : PointerId) (new : ObjectSet) : a.Extends (a.grow i new) :=
  ⟨id, id, id⟩

end Arena

/-! ## States -/

namespace PointsTo.State

variable {s t u : State}

/-- An object has arrived at a pointer or waits for it. -/
def Knows (s : State) (i : PointerId) (o : ObjId) : Prop :=
  o ∈ s.arena.objectsOf i ∨ o ∈ s.pending.waiting i

/-- Objects flow from one numbered pointer to another. -/
def HasFlow (s : State) (i j : PointerId) : Prop := (i, j) ∈ s.flow.edges.toList

/-- Objects flow from one pointer to another. -/
def Flows (s : State) (x y : Pointer) : Prop :=
  ∃ i j, s.arena.pointer i = .ok x ∧ s.arena.pointer j = .ok y ∧ s.HasFlow i j

/-- An object has arrived at a pointer. -/
def Holds (s : State) (x : Pointer) (o : ObjId) : Prop :=
  ∃ i, s.arena.pointer i = .ok x ∧ o ∈ s.arena.objectsOf i

/-- An object has arrived at a pointer or waits for it. -/
def Receives (s : State) (x : Pointer) (o : ObjId) : Prop :=
  ∃ i, s.arena.pointer i = .ok x ∧ s.Knows i o

/-- Whatever has been found in one state has been found in the other. -/
structure Extends (s t : State) : Prop where
  arena : s.arena.Extends t.arena
  flow : ∀ {i j}, s.HasFlow i j → t.HasFlow i j
  reachable : ∀ {m}, m ∈ s.calls.reachable.toList → m ∈ t.calls.reachable.toList
  edges : ∀ {e}, e ∈ s.calls.edges.toList → e ∈ t.calls.edges.toList
  known : ∀ {i o}, s.Knows i o → t.Knows i o

theorem Extends.refl (s : State) : s.Extends s := ⟨.refl _, id, id, id, id⟩

theorem Extends.trans (hst : s.Extends t) (htu : t.Extends u) : s.Extends u :=
  ⟨hst.arena.trans htu.arena, fun h => htu.flow (hst.flow h),
    fun h => htu.reachable (hst.reachable h), fun h => htu.edges (hst.edges h),
    fun h => htu.known (hst.known h)⟩

theorem Extends.flows (h : s.Extends t) {x y : Pointer} : s.Flows x y → t.Flows x y := by
  rintro ⟨i, j, hi, hj, hij⟩
  exact ⟨i, j, h.arena.pointer hi, h.arena.pointer hj, h.flow hij⟩

theorem Extends.receives (h : s.Extends t) {x : Pointer} {o : ObjId} :
    s.Receives x o → t.Receives x o := by
  rintro ⟨i, hi, ho⟩
  exact ⟨i, h.arena.pointer hi, h.known ho⟩

/-- Where the points-to sets are the same, pointers hold what they held before. -/
theorem Extends.holds_of_eq (h : s.Extends t)
    (he : ∀ i, t.arena.objectsOf i = s.arena.objectsOf i) {x : Pointer} {o : ObjId} :
    t.Holds x o → s.Holds x o := by
  rintro ⟨i, hi, ho⟩
  rw [he] at ho
  obtain ⟨y, hy⟩ := Arena.exists_pointer_of_mem ho
  have hxy := h.arena.pointer hy
  rw [hi] at hxy
  cases hxy
  exact ⟨i, hy, ho⟩

/-- What waits, waits for a pointer of the arena, and what a pointer has is known to the pointers
that it flows to. -/
structure Balanced (s : State) : Prop where
  coherent : s.pending.Coherent
  queued : ∀ {i}, i ∈ s.pending.queue.toList → ∃ x, s.arena.pointer i = .ok x
  target : ∀ {i j}, s.HasFlow i j → ∃ x, s.arena.pointer j = .ok x
  flow : ∀ {i j o}, s.HasFlow i j → o ∈ s.arena.objectsOf i → s.Knows j o

/-- A change that connects pointers and sends objects, before any of them arrives. -/
structure Prepares (s t : State) : Prop extends Extends s t where
  objectsOf : ∀ i, t.arena.objectsOf i = s.arena.objectsOf i
  calls : t.calls = s.calls
  balanced : s.Balanced → t.Balanced

theorem Prepares.refl (s : State) : s.Prepares s := ⟨.refl s, fun _ => rfl, rfl, id⟩

theorem Prepares.trans (hst : s.Prepares t) (htu : t.Prepares u) : s.Prepares u :=
  ⟨hst.toExtends.trans htu.toExtends, fun i => by rw [htu.objectsOf, hst.objectsOf],
    by rw [htu.calls, hst.calls], fun h => htu.balanced (hst.balanced h)⟩

/-- Adding to the arena prepares, as long as no points-to set changes. -/
theorem prepares_of_arena {a : Arena} (ha : s.arena.Extends a)
    (ho : ∀ i, a.objectsOf i = s.arena.objectsOf i) : s.Prepares { s with arena := a } := by
  have hk : ∀ {i o}, s.Knows i o → State.Knows { s with arena := a } i o := by
    intro i o h
    unfold Knows at h ⊢
    rwa [ho]
  refine ⟨⟨ha, id, id, id, hk⟩, ho, rfl, fun h => ?_⟩
  refine ⟨h.coherent, fun hi => ?_, fun hij => ?_, fun hij hi => hk (h.flow hij ?_)⟩
  · obtain ⟨x, hx⟩ := h.queued hi
    exact ⟨x, ha.pointer hx⟩
  · obtain ⟨x, hx⟩ := h.target hij
    exact ⟨x, ha.pointer hx⟩
  · exact (ho _) ▸ hi

theorem contextId_prepares (s : State) (x : Context) : s.Prepares (s.contextId x).2 :=
  prepares_of_arena (s.arena.contextId_extends x) fun _ => rfl

theorem objectId_prepares (s : State) (x : AbstractObject) : s.Prepares (s.objectId x).2 :=
  prepares_of_arena (s.arena.objectId_extends x) fun _ => rfl

theorem pointerId_prepares (s : State) (x : Pointer) : s.Prepares (s.pointerId x).2 :=
  prepares_of_arena (s.arena.pointerId_extends x) (s.arena.objectsOf_pointerId x)

/-- Objects may be sent to any pointer of the arena. -/
theorem push_prepares {i : PointerId} {x : Pointer} (hi : s.arena.pointer i = .ok x)
    (objects : ObjectSet) : s.Prepares { s with pending := s.pending.push i objects } := by
  have hk : ∀ {j o}, s.Knows j o →
      State.Knows { s with pending := s.pending.push i objects } j o := by
    rintro j o (h | h)
    · exact Or.inl h
    · exact Or.inr (Pending.mem_waiting_push.2 (Or.inl h))
  refine ⟨⟨.refl _, id, id, id, hk⟩, fun _ => rfl, rfl, fun h => ?_⟩
  refine ⟨h.coherent.push i objects, fun hj => ?_, h.target, fun hij ho => hk (h.flow hij ho)⟩
  rcases Pending.mem_queue_push hj with hj | rfl
  · exact h.queued hj
  · exact ⟨x, hi⟩

theorem send_prepares (s : State) (o : ObjId) (x : Pointer) : s.Prepares (s.send o x) :=
  (s.pointerId_prepares x).trans (push_prepares (s.arena.pointer_pointerId x) _)

theorem send_receives (s : State) (o : ObjId) (x : Pointer) : (s.send o x).Receives x o :=
  ⟨_, s.arena.pointer_pointerId x,
    Or.inr (Pending.mem_waiting_push.2 (Or.inr ⟨rfl, ObjectSet.mem_single.2 rfl⟩))⟩

theorem hasFlow_addFlow {i j k l : PointerId} :
    (s.addFlow i j).HasFlow k l ↔ s.HasFlow k l ∨ k = i ∧ l = j := by
  rw [addFlow_eq]
  split
  · next h =>
    rw [FlowEdges.contains_iff] at h
    constructor
    · exact Or.inl
    · rintro (hkl | ⟨rfl, rfl⟩)
      · exact hkl
      · exact h
  · show (k, l) ∈ (s.flow.insert i j).edges.toList ↔ _
    rw [FlowEdges.edges_insert, Roster.mem_insert, Prod.mk.injEq]
    rfl

/-- A new edge carries what its source has. -/
theorem addFlow_prepares {i j : PointerId} {x : Pointer} (hj : s.arena.pointer j = .ok x) :
    s.Prepares (s.addFlow i j) := by
  by_cases hc : s.flow.contains i j = true
  · have hs : s.addFlow i j = s := by rw [addFlow_eq, if_pos hc]
    rw [hs]
    exact .refl s
  · have hs : s.addFlow i j = { s with
        flow := s.flow.insert i j
        pending := s.pending.push j (s.arena.objectsOf i) } := by rw [addFlow_eq, if_neg hc]
    have hflow : ∀ {k l}, (s.addFlow i j).HasFlow k l ↔ s.HasFlow k l ∨ k = i ∧ l = j :=
      hasFlow_addFlow
    have hp := push_prepares hj (s.arena.objectsOf i)
    rw [hs] at hflow ⊢
    refine ⟨⟨.refl _, fun h => hflow.2 (Or.inl h), id, id, hp.known⟩, fun _ => rfl, rfl,
      fun h => ?_⟩
    have hb := hp.balanced h
    refine ⟨hb.coherent, hb.queued, fun hkl => ?_, fun hkl ho => ?_⟩
    · rcases hflow.1 hkl with hkl | ⟨rfl, rfl⟩
      · exact h.target hkl
      · exact ⟨x, hj⟩
    · rcases hflow.1 hkl with hkl | ⟨rfl, rfl⟩
      · exact hb.flow hkl ho
      · exact Or.inr (Pending.mem_waiting_push.2 (Or.inr ⟨rfl, ho⟩))

theorem connect_prepares (s : State) (x y : Pointer) : s.Prepares (s.connect x y) :=
  (s.pointerId_prepares x).trans
    (((s.pointerId x).2.pointerId_prepares y).trans
      (addFlow_prepares ((s.pointerId x).2.arena.pointer_pointerId y)))

theorem connect_flows (s : State) (x y : Pointer) : (s.connect x y).Flows x y := by
  have hx := s.arena.pointer_pointerId x
  have hy := (s.pointerId x).2.arena.pointer_pointerId y
  have hp := addFlow_prepares (s := ((s.pointerId x).2.pointerId y).2) (i := (s.pointerId x).1) hy
  have hxy := (s.pointerId x).2.arena.pointerId_extends y
  exact ⟨_, _, hp.arena.pointer (hxy.pointer hx), hp.arena.pointer hy,
    hasFlow_addFlow.2 (Or.inr ⟨rfl, rfl⟩)⟩

/-- Connecting pointers one pair after the other prepares, and connects every pair. -/
theorem foldl_connect {α : Type} (f g : α → Pointer) :
    ∀ (as : List α) (s : State),
      s.Prepares (as.foldl (fun s a => s.connect (f a) (g a)) s) ∧
        ∀ a ∈ as, (as.foldl (fun s a => s.connect (f a) (g a)) s).Flows (f a) (g a)
  | [], s => ⟨.refl s, by simp⟩
  | a :: as, s => by
    obtain ⟨hp, hf⟩ := foldl_connect f g as (s.connect (f a) (g a))
    refine ⟨(s.connect_prepares (f a) (g a)).trans hp, fun b hb => ?_⟩
    rcases List.mem_cons.1 hb with rfl | hb
    · exact hp.flows (s.connect_flows (f b) (g b))
    · exact hf b hb

end PointsTo.State

end ObjectFlow
