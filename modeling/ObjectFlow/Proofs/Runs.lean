import ObjectFlow.PointsTo.Solver
import ObjectFlow.Proofs.Accepted
import ObjectFlow.Proofs.Growth

/-!
# Runs of the points-to analysis

The outcome of an analysis must not depend on the choices that a run makes: which of the waiting
pointers is served next, in which order the objects react that have arrived there, and when somebody
adds an edge to the flow by hand. `Advances` is a step with these choices left open, and `Reaches`
collects the states that such steps lead to. The functions that fix the choices stay inside:
`advances_of_step` and `reaches_of_solve`.
-/

namespace ObjectFlow.PointsTo.State

variable (p : Program) (how : Sensitivity)

/-- What is new among the objects that arrive at a pointer, and the state after their arrival. -/
def arrival (s : State) (i : PointerId) (objects : ObjectSet) (rest : Pending) :
    ObjectSet × State :=
  { s with pending := rest }.absorb i objects

/-- Objects arrive at a pointer, and those listed in `order` react one after the other. -/
def Serves (s : State) (i : PointerId) (objects : ObjectSet) (rest : Pending) (order : List ObjId)
    (t : State) : Prop :=
  ∃ tasks limit, (s.arrival i objects rest).2.reactions p i order = .ok tasks ∧
    drain p how limit tasks (s.arrival i objects rest).2 = .ok t

/-- Some waiting pointer takes its objects, and the new ones among them react in some order. -/
def Advances (s t : State) : Prop :=
  ∃ i objects rest order, s.pending.Takes i objects rest ∧
    order.Perm (s.arrival i objects rest).1.toList ∧ s.Serves p how i objects rest order t

/-- The states that an analysis can come to after it has been started. Between steps an edge may be
added by hand between two pointers of the arena, where `extra` allows it. -/
inductive Reaches (extra : Arena → PointerId → PointerId → Prop) : State → Prop
  | start {discipline limit s} :
      (initial how discipline).start p how limit = .ok s → Reaches extra s
  | step {s t} : Reaches extra s → s.Advances p how t → Reaches extra t
  | addFlow {s i j x y} : Reaches extra s → s.arena.pointer i = .ok x →
      s.arena.pointer j = .ok y → extra s.arena i j → Reaches extra (s.addFlow i j)

/-- The number of the context in which execution starts. -/
def entryContext (discipline : Discipline) : ContextId :=
  ((initial how discipline).contextId how.start).1

/-- The state in which the entry method is about to be entered. -/
def opening (discipline : Discipline) : State :=
  let s := ((initial how discipline).contextId how.start).2
  { s with calls := s.calls.addEntry (entryContext how discipline, p.entry) }

/-- No edge is added by hand. -/
def noExtra : Arena → PointerId → PointerId → Prop := fun _ _ _ => False

/-- Any edge may be added by hand. -/
def anyExtra : Arena → PointerId → PointerId → Prop := fun _ _ _ => True

variable {p how} {s t : State} {limit : Nat}

theorem Reaches.mono {extra extra' : Arena → PointerId → PointerId → Prop}
    (he : ∀ a i j, extra a i j → extra' a i j) (h : Reaches p how extra s) :
    Reaches p how extra' s := by
  induction h with
  | start hs => exact .start hs
  | step _ ha ih => exact .step ih ha
  | addFlow _ hi hj hx ih => exact .addFlow ih hi hj (he _ _ _ hx)

/-! ## The beginning -/

section Opening

variable {discipline : Discipline}

theorem start_eq : (initial how discipline).start p how limit =
    drain p how limit [.enter (entryContext how discipline) p.entry] (opening p how discipline) :=
  rfl

theorem context_entryContext :
    (opening p how discipline).arena.context (entryContext how discipline) = .ok how.start :=
  (initial how discipline).arena.context_contextId how.start

theorem pointer_opening {i : PointerId} {x : Pointer} :
    (opening p how discipline).arena.pointer i ≠ .ok x := by
  intro h
  cases Arena.pointer_eq_ok.1 h

theorem coherent_empty : (Pending.empty discipline).Coherent :=
  ⟨List.nodup_nil, fun i => by
    show i ∈ ([] : List PointerId) ↔ i ∈ (∅ : Std.ExtTreeMap PointerId ObjectSet)
    simp⟩

theorem opening_balanced : (opening p how discipline).Balanced := by
  refine ⟨coherent_empty, fun hi => ?_, fun hij => ?_, fun hij => ?_⟩
  · cases hi
  · cases hij
  · cases hij

end Opening

/-! ## Functions that choose -/

theorem advances_of_step (h : s.step p how limit = .ok (some t)) : s.Advances p how t := by
  obtain ⟨r, hr, h⟩ := bind_eq_ok.1 h
  split at h
  · cases h
  · next i objects rest =>
    obtain ⟨tasks, ht, h⟩ := bind_eq_ok.1 h
    obtain ⟨u, hu, h⟩ := bind_eq_ok.1 h
    cases h
    exact ⟨i, objects, rest, _, Pending.pop_takes hr, .refl _, tasks, limit, ht, hu⟩

theorem Reaches.run {extra : Arena → PointerId → PointerId → Prop} :
    ∀ {n k : Nat} {s t : State}, Reaches p how extra s →
      State.run p how limit n s = .ok (k, t) → Reaches p how extra t
  | 0, _, _, _, hs, h => by
    cases h
    exact hs
  | n + 1, k, s, t, hs, h => by
    obtain ⟨r, hr, h⟩ := bind_eq_ok.1 h
    cases r with
    | none =>
      cases h
      exact hs
    | some u => exact Reaches.run (hs.step (advances_of_step hr)) h

/-- A solved analysis has come to a state in which nothing waits. -/
theorem reaches_of_solve {discipline : Discipline}
    (h : (initial how discipline).solve p how limit = .ok s) :
    Reaches p how noExtra s ∧ s.pending.isEmpty = true := by
  obtain ⟨t, ht, h⟩ := bind_eq_ok.1 h
  obtain ⟨⟨k, u⟩, hu, h⟩ := bind_eq_ok.1 h
  have hr : Reaches p how noExtra u := Reaches.run (.start ht) hu
  by_cases he : u.pending.isEmpty = true
  · simp only [he, if_true] at h
    cases h
    exact ⟨hr, he⟩
  · simp only [he, if_false, Bool.false_eq_true] at h
    cases h

/-! ## Arrival -/

section Arrival

variable {i : PointerId} {objects : ObjectSet} {rest : Pending}

theorem mem_new {o : ObjId} :
    o ∈ (s.arrival i objects rest).1 ↔ o ∈ objects ∧ o ∉ s.arena.objectsOf i :=
  ObjectSet.mem_diff

variable (hs : s.Balanced) (ht : s.pending.Takes i objects rest)
include hs ht

theorem exists_pointer_of_takes : ∃ x, s.arena.pointer i = .ok x :=
  hs.queued (ht.perm.mem_iff.1 List.mem_cons_self)

theorem mem_objectsOf_arrival {j : PointerId} {o : ObjId} :
    o ∈ (s.arrival i objects rest).2.arena.objectsOf j ↔
      o ∈ s.arena.objectsOf j ∨ i = j ∧ o ∈ objects := by
  obtain ⟨x, hx⟩ := exists_pointer_of_takes hs ht
  show o ∈ (s.arena.grow i (s.arrival i objects rest).1).objectsOf j ↔ _
  rw [Arena.mem_objectsOf_grow hx, mem_new]
  by_cases ho : o ∈ s.arena.objectsOf j
  · simp [ho]
  · constructor
    · rintro (h | ⟨rfl, h, -⟩)
      · exact absurd h ho
      · exact Or.inr ⟨rfl, h⟩
    · rintro (h | ⟨rfl, h⟩)
      · exact absurd h ho
      · exact Or.inr ⟨rfl, h, ho⟩

omit hs in
theorem mem_waiting_arrival {j : PointerId} {o : ObjId} :
    o ∈ (s.arrival i objects rest).2.pending.waiting j ↔
      i ≠ j ∧ o ∈ s.pending.waiting j ∨ s.HasFlow i j ∧ o ∈ (s.arrival i objects rest).1 := by
  show o ∈ ((s.flow.succs i).foldl (fun w q => w.push q (s.arrival i objects rest).1)
    rest).waiting j ↔ _
  have hj : j ∈ s.flow.succs i ↔ s.HasFlow i j := by
    rw [FlowEdges.succs_eq]
    simp [targetsIn, HasFlow]
  rw [Pending.mem_waiting_foldl_push, ht.mem_waiting, hj]

/-- Nothing is lost when objects arrive: they wait no longer, but now they are there. -/
theorem knows_arrival {j : PointerId} {o : ObjId} (h : s.Knows j o) :
    (s.arrival i objects rest).2.Knows j o := by
  rcases h with h | h
  · exact Or.inl ((mem_objectsOf_arrival hs ht).2 (Or.inl h))
  · by_cases hij : i = j
    · subst hij
      rw [← ht.objects_eq] at h
      exact Or.inl ((mem_objectsOf_arrival hs ht).2 (Or.inr ⟨rfl, h⟩))
    · exact Or.inr ((mem_waiting_arrival ht).2 (Or.inl ⟨hij, h⟩))

theorem knows_of_mem_order {order : List ObjId}
    (horder : order.Perm (s.arrival i objects rest).1.toList) :
    ∀ o ∈ order, (s.arrival i objects rest).2.Knows i o := by
  intro o ho
  have hnew := mem_new.1 (Std.ExtTreeSet.mem_toList.1 (horder.mem_iff.1 ho))
  exact Or.inl ((mem_objectsOf_arrival hs ht).2 (Or.inr ⟨rfl, hnew.1⟩))

theorem arrival_extends : s.Extends (s.arrival i objects rest).2 :=
  ⟨Arena.grow_extends _ _ _, id, id, id, knows_arrival hs ht⟩

omit hs in
theorem mem_queue_arrival {j : PointerId}
    (hj : j ∈ (s.arrival i objects rest).2.pending.queue.toList) :
    j ∈ s.pending.queue.toList ∨ s.HasFlow i j := by
  rcases Pending.mem_queue_foldl_push _ hj with h | h
  · exact Or.inl (ht.perm.mem_iff.1 (List.mem_cons_of_mem _ h))
  · rw [FlowEdges.succs_eq] at h
    exact Or.inr (by simpa [targetsIn, HasFlow] using h)

/-- The new objects have been sent on, so the flow stays balanced. -/
theorem arrival_balanced : (s.arrival i objects rest).2.Balanced := by
  refine ⟨Pending.Coherent.foldl_push _ (ht.coherent hs.coherent), fun hj => ?_, hs.target,
    fun {j k o} hjk ho => ?_⟩
  · rcases mem_queue_arrival ht hj with hj | hj
    · exact hs.queued hj
    · exact hs.target hj
  · by_cases hold : o ∈ s.arena.objectsOf j
    · exact knows_arrival hs ht (hs.flow hjk hold)
    · rcases (mem_objectsOf_arrival hs ht).1 ho with hnew | ⟨rfl, hnew⟩
      · exact absurd hnew hold
      · exact Or.inr ((mem_waiting_arrival ht).2 (Or.inr ⟨hjk, mem_new.2 ⟨hnew, hold⟩⟩))

end Arrival

/-! ## Reactions -/

/-- Where a variable is used is where its objects go on. -/
theorem mem_sitesThrough (hp : p.Accepted) {v : VarId} {uses : VarUses}
    (hu : p.varUses v = .ok uses) {site : StmtId} :
    site ∈ sitesThrough uses ↔ ∃ st, p.stmt site = .ok st ∧ st.through = some v := by
  obtain ⟨m, method, hv, hm, rfl⟩ := (Program.varUses_eq_ok hp).1 hu
  simp only [sitesThrough, Model.varUses, List.mem_append, Model.mem_sitesWhere,
    Program.mem_stmts hp hm]
  constructor
  · rintro ((((⟨st, ⟨-, hst⟩, ht⟩ | ⟨st, ⟨-, hst⟩, ht⟩) | ⟨st, ⟨-, hst⟩, ht⟩) |
      ⟨st, ⟨-, hst⟩, ht⟩) | ⟨st, ⟨-, hst⟩, ht⟩) <;>
    · refine ⟨st, hst, ?_⟩
      cases st <;> simp_all [Stmt.through]
  · rintro ⟨st, hst, ht⟩
    obtain ⟨d, hd, hm'⟩ := hv
    obtain ⟨d', hd', hsite⟩ := Program.declares_of_stmt hp hst
      (List.mem_append_right _ (Stmt.mem_used_of_through ht))
    rw [hd] at hd'
    cases hd'
    have hm : site.method = m := hsite.symm.trans hm'
    cases st <;> simp_all [Stmt.through]

/-- Each new object at a variable reacts at every statement that goes through the variable, and
nothing else happens. -/
theorem mem_reactions (hp : p.Accepted) {i : PointerId} {order : List ObjId} {tasks : List Task}
    (h : s.reactions p i order = .ok tasks) {task : Task} :
    task ∈ tasks ↔ ∃ o c v site st, s.arena.pointer i = .ok (.var c v) ∧ o ∈ order ∧
      p.stmt site = .ok st ∧ st.through = some v ∧ task = .arrive o c site := by
  obtain ⟨x, hx, h⟩ := bind_eq_ok.1 h
  rw [hx]
  cases x with
  | var c v =>
    obtain ⟨uses, hu, h⟩ := bind_eq_ok.1 h
    cases h
    simp only [List.mem_flatMap, List.mem_map, mem_sitesThrough hp hu]
    constructor
    · rintro ⟨o, ho, site, ⟨st, hst, hv⟩, rfl⟩
      exact ⟨o, c, v, site, st, rfl, ho, hst, hv, rfl⟩
    · rintro ⟨o, c', v', site, st, heq, ho, hst, hv, rfl⟩
      cases heq
      exact ⟨o, ho, site, ⟨st, hst, hv⟩, rfl⟩
  | instanceField o f =>
    cases h
    simp
  | staticField f =>
    cases h
    simp
  | elements o =>
    cases h
    simp

/-! ## An example -/

/-- One box is passed through a method of another one, put into it and taken out again. -/
def boxes : Model where
  classes := #[{ name := "Main" }, { name := "Box" }]
  fields := #[{ owner := ⟨1⟩, name := "item", ty := .ref ⟨1⟩ }]
  methods := #[
    { owner := ⟨0⟩, name := "main", subsignature := "void main()", isStatic := true,
      returnType := .void,
      body := #[.alloc ⟨0⟩ (.ref ⟨1⟩), .alloc ⟨1⟩ (.ref ⟨1⟩),
        .invoke ⟨.virtual, some ⟨2⟩, some ⟨0⟩, ⟨⟨1⟩, "Box id(Box)"⟩, [⟨1⟩]⟩,
        .storeField ⟨some ⟨0⟩, ⟨0⟩⟩ ⟨2⟩, .loadField ⟨3⟩ ⟨some ⟨0⟩, ⟨0⟩⟩] },
    { owner := ⟨1⟩, name := "id", subsignature := "Box id(Box)", params := [⟨5⟩],
      this := some ⟨4⟩, returnType := .ref ⟨1⟩, body := #[.ret (some ⟨5⟩)] }]
  vars := #[⟨⟨0⟩, "box", .ref ⟨1⟩⟩, ⟨⟨0⟩, "item", .ref ⟨1⟩⟩, ⟨⟨0⟩, "same", .ref ⟨1⟩⟩,
    ⟨⟨0⟩, "out", .ref ⟨1⟩⟩, ⟨⟨1⟩, "this", .ref ⟨1⟩⟩, ⟨⟨1⟩, "other", .ref ⟨1⟩⟩]
  entry := ⟨0⟩

theorem boxes_accepted : (Program.index boxes).Accepted := by
  have h : boxes.violations = [] := by decide +kernel
  exact ⟨boxes, by rw [Program.ofModel, h]⟩

end ObjectFlow.PointsTo.State
