import ObjectFlow.PointsTo.Result
import ObjectFlow.Proofs.Obligations
import ObjectFlow.Proofs.Runs

/-!
# What a result says

A result forgets contexts. It lets a variable point to what the variable points to in some context
(`mem_pointsTo`), and its plain call graph has a method or a call exactly if the state has it in
some context. An analysis that has succeeded gives the result of a solved state
(`exists_solve_of_analyze`). The analyses that follow take the result of any analysis that has come
to its end (`Result.IsOutcome`), in whatever order it has served pointers and objects.
-/

namespace ObjectFlow

open Std

theorem mem_pointerEntries {a : Arena} {i : PointerId} {x : Pointer} :
    (i, x) ∈ a.pointerEntries ↔ a.pointer i = .ok x := by
  obtain ⟨i⟩ := i
  rw [Arena.pointer_eq_ok, Roster.get?_eq_getElem?]
  simp only [Arena.pointerEntries, List.mem_map, Prod.mk.injEq, Id.mk.injEq]
  constructor
  · rintro ⟨⟨y, j⟩, hj, rfl, rfl⟩
    exact List.mk_mem_zipIdx_iff_getElem?.1 hj
  · intro h
    exact ⟨(x, i), List.mk_mem_zipIdx_iff_getElem?.2 h, rfl, rfl⟩

theorem getD_map_groupBy {α β κ : Type} [Keyed κ] [DecidableEq κ] (f : α → κ) (g : α → β)
    (as : List α) (k : κ) :
    ((groupBy f as).map fun _ group => group.map g).getD k [] = (as.filter (f · = k)).map g := by
  rw [← getD_groupBy, ExtTreeMap.getD_map, ExtTreeMap.getD_eq_getD_getElem?]
  cases (groupBy f as)[k]? <;> rfl

/-- Members of a group that has been mapped are mapped members of the group. -/
theorem mem_map_groupBy {α β κ : Type} [Keyed κ] [DecidableEq κ] {f : α → κ} {g : α → β}
    {as : List α} {k : κ} {b : β} :
    b ∈ ((groupBy f as).map fun _ group => group.map g).getD k [] ↔
      ∃ a ∈ as, f a = k ∧ g a = b := by
  rw [getD_map_groupBy]
  simp [and_assoc]

namespace ObjectSet

theorem mem_foldl_union {α : Type} (f : α → ObjectSet) {o : ObjId} :
    ∀ {as : List α} {s : ObjectSet},
      o ∈ as.foldl (fun s a => s ∪ f a) s ↔ o ∈ s ∨ ∃ a ∈ as, o ∈ f a
  | [], s => by simp
  | a :: as, s => by
    rw [List.foldl_cons, mem_foldl_union f, mem_union, or_assoc]
    simp

end ObjectSet

namespace PointsTo

/-! ## The entry -/

namespace State

variable {p : Program} {how : Sensitivity} {s t : State}

theorem entries_of_drain (hp : p.Accepted) :
    ∀ {limit : Nat} {tasks : List Task} {s t : State}, drain p how limit tasks s = .ok t →
      t.calls.entries = s.calls.entries
  | 0, [], _, _, h => by
    cases h
    rfl
  | _ + 1, [], _, _, h => by
    cases h
    rfl
  | 0, _ :: _, _, _, h => by cases h
  | limit + 1, task :: tasks, s, t, h => by
    obtain ⟨⟨next, u⟩, hu, h⟩ := bind_eq_ok.1 h
    rw [entries_of_drain hp h, (perform_effect hp hu).1.entries]

/-- Execution starts at the entry method and nowhere else. -/
theorem entries_of_reaches (hp : p.Accepted) {extra : Arena → PointerId → PointerId → Prop}
    (h : Reaches p how extra s) : ∃ c, s.calls.entries.toList = [(c, p.entry)] := by
  induction h with
  | @start discipline limit s hs =>
    rw [start_eq] at hs
    rw [entries_of_drain hp hs]
    exact ⟨entryContext how discipline, rfl⟩
  | step _ ha ih =>
    obtain ⟨i, objects, rest, order, -, -, tasks, limit, -, hdrain⟩ := ha
    rw [entries_of_drain hp hdrain]
    exact ih
  | @addFlow s i j x y _ _ hj _ ih =>
    rw [(addFlow_prepares hj).calls]
    exact ih

end State

namespace Result

variable {s : State} {metrics : Bool}

theorem mem_varPointers {v : VarId} {c : ContextId} {i : PointerId} :
    (c, i) ∈ (ofState s metrics).varPointers.getD v [] ↔ s.arena.pointer i = .ok (.var c v) := by
  rw [ofState, mem_map_groupBy]
  simp only [List.mem_filterMap]
  constructor
  · rintro ⟨⟨w, d, j⟩, ⟨⟨k, x⟩, hx, he⟩, rfl, hci⟩
    cases hci
    cases x <;> simp only [variableEntry, Option.some.injEq, Prod.mk.injEq, reduceCtorEq] at he
    obtain ⟨rfl, rfl, rfl⟩ := he
    exact mem_pointerEntries.1 hx
  · intro h
    exact ⟨(v, c, i), ⟨(i, .var c v), mem_pointerEntries.2 h, rfl⟩, rfl, rfl⟩

/-- A variable points to what it points to in some context. -/
theorem mem_pointsTo {v : VarId} {o : ObjId} :
    o ∈ (ofState s metrics).pointsTo v ↔ ∃ c, s.Holds (.var c v) o := by
  rw [pointsTo, ObjectSet.mem_foldl_union fun e : ContextId × PointerId =>
    (ofState s metrics).arena.objectsOf e.2]
  constructor
  · rintro (h | ⟨⟨c, i⟩, hci, ho⟩)
    · simp at h
    · exact ⟨c, i, mem_varPointers.1 hci, ho⟩
  · rintro ⟨c, i, hi, ho⟩
    exact Or.inr ⟨(c, i), mem_varPointers.2 hi, ho⟩

/-- What points to something is among the variables of the result. -/
theorem mem_vars_of_mem_pointsTo {r : Result} {v : VarId} {o : ObjId} (h : o ∈ r.pointsTo v) :
    v ∈ r.vars := by
  by_cases hv : v ∈ r.varPointers
  · exact ExtTreeMap.mem_keys.2 hv
  · rw [pointsTo, ExtTreeMap.getD_eq_fallback hv] at h
    simp at h

theorem mem_reachable {m : MethodId} :
    m ∈ (ofState s metrics).plainCalls.reachable.toList ↔
      ∃ c, (c, m) ∈ s.calls.reachable.toList := by
  show m ∈ (Roster.ofList (s.calls.reachable.toList.map (·.2))).toList ↔ _
  rw [Roster.mem_ofList, List.mem_map]
  simp

theorem mem_edges {e : CallEdge StmtId MethodId} :
    e ∈ (ofState s metrics).plainCalls.edges.toList ↔
      ∃ c d, ⟨e.kind, (c, e.site), (d, e.callee)⟩ ∈ s.calls.edges.toList := by
  show e ∈ (Roster.ofList (s.calls.edges.toList.map fun e =>
    (⟨e.kind, e.site.2, e.callee.2⟩ : CallEdge StmtId MethodId))).toList ↔ _
  rw [Roster.mem_ofList, List.mem_map]
  constructor
  · rintro ⟨⟨kind, ⟨c, site⟩, ⟨d, m⟩⟩, he, rfl⟩
    exact ⟨c, d, he⟩
  · rintro ⟨c, d, he⟩
    exact ⟨_, he, rfl⟩

theorem mem_callees {site : StmtId} {m : MethodId} :
    m ∈ (ofState s metrics).plainCalls.callees site ↔
      ∃ kind c d, ⟨kind, (c, site), (d, m)⟩ ∈ s.calls.edges.toList := by
  simp only [CallGraph.callees, List.mem_map, List.mem_filter, mem_edges, decide_eq_true_eq]
  constructor
  · rintro ⟨e, ⟨⟨c, d, he⟩, rfl⟩, rfl⟩
    exact ⟨e.kind, c, d, he⟩
  · rintro ⟨kind, c, d, he⟩
    exact ⟨⟨kind, site, m⟩, ⟨⟨c, d, he⟩, rfl⟩, rfl⟩

end Result

/-- The result of an analysis that has succeeded is that of a solved state. -/
theorem exists_solve_of_analyze {p : Program} {o : Options} {limit : Nat} {r : Result}
    (h : analyze p o limit = .ok r) :
    ∃ s, (State.initial o.sensitivity o.discipline).solve p o.sensitivity limit = .ok s ∧
      r = .ofState s o.metrics := by
  obtain ⟨s, hs, h⟩ := bind_eq_ok.1 h
  refine ⟨s, hs, ?_⟩
  by_cases hc : o.check = true
  · simp only [hc, if_true] at h
    obtain ⟨-, -, h⟩ := bind_eq_ok.1 h
    exact (pure_eq_ok.1 h).symm
  · simp only [hc, if_false, Bool.false_eq_true] at h
    exact (pure_eq_ok.1 h).symm

/-- An analysis of the program has come to its end with this result, whatever was chosen on the way.
-/
def Result.IsOutcome (r : Result) (p : Program) : Prop :=
  ∃ how s metrics, State.Reaches p how State.noExtra s ∧ s.pending.isEmpty = true ∧
    Result.ofState s metrics = r

theorem Result.isOutcome_of_analyze {p : Program} {o : Options} {limit : Nat} {r : Result}
    (h : analyze p o limit = .ok r) : r.IsOutcome p := by
  obtain ⟨s, hs, rfl⟩ := exists_solve_of_analyze h
  obtain ⟨hreaches, hend⟩ := State.reaches_of_solve hs
  exact ⟨_, s, _, hreaches, hend, rfl⟩

end PointsTo

end ObjectFlow
