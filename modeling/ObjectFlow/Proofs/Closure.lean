import ObjectFlow.Proofs.Obligations

/-!
# The rules hold when nothing waits

A state asks for tasks (`Due`): to execute the statements of its reachable methods, to let the
objects of a variable go through the statements at which the variable is a base or a receiver, and
to enter and bind the calls that it has found. The invariant of a run is `ClosedUpTo`: each task
that is due has been done or is on the list of tasks still to be performed, and the flow is
balanced. Between steps the list is empty, so once nothing waits any more the state is closed under
all rules: `Closed`.

`closed_of_reaches` is the main result. `ClosedUpTo.perform` is its step lemma.
-/

namespace ObjectFlow.PointsTo.State

variable (p : Program) (how : Sensitivity)

/-- Every rule of the analysis holds. -/
structure Closed (s : State) : Prop where
  /-- The entry method is reachable in the context in which execution starts. -/
  entry : ∃ c, s.arena.context c = .ok how.start ∧ (c, p.entry) ∈ s.calls.reachable.toList
  /-- The statements of reachable methods have been executed. -/
  executed : ∀ {c site st}, (c, site.method) ∈ s.calls.reachable.toList → p.stmt site = .ok st →
    s.Executed p how s.Holds c site st
  /-- The objects at a base or receiver have gone through the statement. -/
  passed : ∀ {c site st x o}, (c, site.method) ∈ s.calls.reachable.toList →
    p.stmt site = .ok st → st.through = some x → s.Holds (.var c x) o →
    s.Passed p how s.Holds o c site st
  /-- What a call leads to is reachable. -/
  entered : ∀ {e}, e ∈ s.calls.edges.toList → e.callee ∈ s.calls.reachable.toList
  /-- Arguments and results are connected along every call. -/
  bound : ∀ {e}, e ∈ s.calls.edges.toList → s.Bound p e
  /-- What a pointer has, the pointers it flows to have as well. -/
  flow : ∀ {i j}, s.HasFlow i j → ∀ o ∈ s.arena.objectsOf i, o ∈ s.arena.objectsOf j

/-- The tasks that a state asks for. -/
inductive Due (s : State) : Task → Prop
  | execute {c site st} : (c, site.method) ∈ s.calls.reachable.toList → p.stmt site = .ok st →
      Due s (.execute c site)
  | arrive {o c v site st} : s.Holds (.var c v) o → p.stmt site = .ok st → st.through = some v →
      Due s (.arrive o c site)
  | enter {e} : e ∈ s.calls.edges.toList → Due s (.enter e.callee.1 e.callee.2)
  | bind {e} : e ∈ s.calls.edges.toList → Due s (.bind e)

/-- The flow is balanced, and all that is left of the rules is to perform the given tasks. -/
structure ClosedUpTo (s : State) (tasks : List Task) : Prop where
  balanced : s.Balanced
  entry : ∃ c, s.arena.context c = .ok how.start ∧
    (s.Done p how (.enter c p.entry) ∨ .enter c p.entry ∈ tasks)
  due : ∀ {task}, s.Due p task → s.Done p how task ∨ task ∈ tasks

variable {p how} {s t : State}

/-! ## Steps -/

/-- What is due after an effect was due before it, or is among the tasks that come next. -/
theorem Effect.due {next : List Task} (h : Effect p s next t) {task : Task} (ht : t.Due p task) :
    s.Due p task ∨ task ∈ next := by
  cases ht with
  | execute hm hst =>
    rcases h.newReachable hm with hm | hall
    · exact Or.inl (.execute hm hst)
    · exact Or.inr (hall _ _ rfl hst)
  | arrive ho hst hv => exact Or.inl (.arrive (h.holds_of_eq h.objectsOf ho) hst hv)
  | enter he =>
    rcases h.newEdges he with he | ⟨he, -⟩
    · exact Or.inl (.enter he)
    · exact Or.inr he
  | bind he =>
    rcases h.newEdges he with he | ⟨-, he⟩
    · exact Or.inl (.bind he)
    · exact Or.inr he

theorem ClosedUpTo.perform (hp : p.Accepted) {task : Task} {tasks next : List Task}
    (hs : ClosedUpTo p how s (task :: tasks)) (h : s.perform p how task = .ok (next, t)) :
    ClosedUpTo p how t (next ++ tasks) := by
  obtain ⟨heffect, hdone⟩ := perform_effect hp h
  have keep : ∀ {task'}, s.Done p how task' ∨ task' ∈ task :: tasks →
      t.Done p how task' ∨ task' ∈ next ++ tasks := by
    intro task' h
    rcases h with h | h
    · exact Or.inl (h.mono heffect.toExtends)
    · rcases List.mem_cons.1 h with rfl | h
      · exact Or.inl hdone
      · exact Or.inr (List.mem_append_right _ h)
  refine ⟨heffect.balanced hs.balanced, ?_, fun hdue => ?_⟩
  · obtain ⟨c, hc, h⟩ := hs.entry
    exact ⟨c, heffect.arena.context hc, keep h⟩
  · rcases heffect.due hdue with hdue | hnext
    · exact keep (hs.due hdue)
    · exact Or.inr (List.mem_append_left _ hnext)

theorem ClosedUpTo.drain (hp : p.Accepted) :
    ∀ {limit : Nat} {tasks : List Task} {s t : State}, ClosedUpTo p how s tasks →
      drain p how limit tasks s = .ok t → ClosedUpTo p how t []
  | 0, [], _, _, hs, h => by
    cases h
    exact hs
  | _ + 1, [], _, _, hs, h => by
    cases h
    exact hs
  | 0, _ :: _, _, _, _, h => by cases h
  | limit + 1, task :: tasks, s, t, hs, h => by
    obtain ⟨⟨next, u⟩, hu, h⟩ := bind_eq_ok.1 h
    exact ClosedUpTo.drain hp (hs.perform hp hu) h

/-- Objects may arrive at any waiting pointer: what becomes due is what they do there. -/
theorem ClosedUpTo.arrival (hp : p.Accepted) (hs : ClosedUpTo p how s []) {i : PointerId}
    {objects : ObjectSet} {rest : Pending} (ht : s.pending.Takes i objects rest)
    {order : List ObjId} (horder : order.Perm (s.arrival i objects rest).1.toList)
    {tasks : List Task}
    (h : (s.arrival i objects rest).2.reactions p i order = .ok tasks) :
    ClosedUpTo p how (s.arrival i objects rest).2 tasks := by
  have hext := arrival_extends hs.balanced ht
  have keep : ∀ {task}, s.Due p task →
      (s.arrival i objects rest).2.Done p how task ∨ task ∈ tasks := by
    intro task hdue
    rcases hs.due hdue with hd | hd
    · exact Or.inl (hd.mono hext)
    · cases hd
  refine ⟨arrival_balanced hs.balanced ht, ?_, fun hdue => ?_⟩
  · obtain ⟨c, hc, hd | hd⟩ := hs.entry
    · exact ⟨c, hext.arena.context hc, Or.inl (hd.mono hext)⟩
    · cases hd
  · cases hdue with
    | execute hm hst => exact keep (.execute hm hst)
    | enter he => exact keep (.enter he)
    | bind he => exact keep (.bind he)
    | @arrive o c v site st hhold hst hv =>
      obtain ⟨j, hj, ho⟩ := hhold
      by_cases hold : o ∈ s.arena.objectsOf j
      · exact keep (.arrive ⟨j, hj, hold⟩ hst hv)
      · rcases (mem_objectsOf_arrival hs.balanced ht).1 ho with hnew | ⟨rfl, hnew⟩
        · exact absurd hnew hold
        · have hmem : o ∈ order :=
            horder.mem_iff.2 (Std.ExtTreeSet.mem_toList.2 (mem_new.2 ⟨hnew, hold⟩))
          exact Or.inr ((mem_reactions hp h).2 ⟨o, c, v, site, st, hj, hmem, hst, hv, rfl⟩)

theorem ClosedUpTo.advances (hp : p.Accepted) (hs : ClosedUpTo p how s [])
    (h : s.Advances p how t) : ClosedUpTo p how t [] := by
  obtain ⟨i, objects, rest, order, ht, horder, tasks, limit, hr, hd⟩ := h
  exact (hs.arrival hp ht horder hr).drain hp hd

/-- Edges may be added by hand: a new edge asks for nothing but that it is balanced. -/
theorem ClosedUpTo.addFlow (hs : ClosedUpTo p how s []) {i j : PointerId} {x : Pointer}
    (hj : s.arena.pointer j = .ok x) : ClosedUpTo p how (s.addFlow i j) [] := by
  have hprep := addFlow_prepares (s := s) (i := i) hj
  refine ⟨hprep.balanced hs.balanced, ?_, fun hdue => ?_⟩
  · obtain ⟨c, hc, hd | hd⟩ := hs.entry
    · exact ⟨c, hprep.arena.context hc, Or.inl (hd.mono hprep.toExtends)⟩
    · cases hd
  · rcases hprep.effect.due hdue with hdue | hnext
    · rcases hs.due hdue with hd | hd
      · exact Or.inl (hd.mono hprep.toExtends)
      · cases hd
    · cases hnext

/-! ## Runs -/

theorem closedUpTo_opening {discipline : Discipline} :
    ClosedUpTo p how (opening p how discipline)
      [.enter (entryContext how discipline) p.entry] := by
  refine ⟨opening_balanced, ⟨_, context_entryContext, Or.inr (List.mem_singleton.2 rfl)⟩,
    fun hdue => ?_⟩
  cases hdue with
  | execute hm hst => cases hm
  | enter he => cases he
  | bind he => cases he
  | arrive hhold hst hv =>
    obtain ⟨i, hi, -⟩ := hhold
    exact absurd hi pointer_opening

theorem closedUpTo_of_reaches (hp : p.Accepted) {extra : Arena → PointerId → PointerId → Prop}
    (h : Reaches p how extra s) : ClosedUpTo p how s [] := by
  induction h with
  | start hs =>
    rw [start_eq] at hs
    exact closedUpTo_opening.drain hp hs
  | step _ ha ih => exact ih.advances hp ha
  | addFlow _ _ hj _ ih => exact ih.addFlow hj

theorem balanced_of_reaches (hp : p.Accepted) {extra : Arena → PointerId → PointerId → Prop}
    (h : Reaches p how extra s) : s.Balanced :=
  (closedUpTo_of_reaches hp h).balanced

/-- What is received has arrived when nothing waits. -/
theorem Balanced.holds_of_receives (hb : s.Balanced) (hs : s.pending.isEmpty = true) {x : Pointer}
    {o : ObjId} : s.Receives x o → s.Holds x o := by
  rintro ⟨i, hi, ho | ho⟩
  · exact ⟨i, hi, ho⟩
  · exact absurd ho (Pending.not_mem_waiting_of_isEmpty hb.coherent hs i o)

/-- **Closure.** In every state that a run can come to, all rules hold as soon as nothing waits. -/
theorem closed_of_reaches (hp : p.Accepted) {extra : Arena → PointerId → PointerId → Prop}
    (h : Reaches p how extra s) (hs : s.pending.isEmpty = true) : Closed p how s := by
  have hc := closedUpTo_of_reaches hp h
  have done : ∀ {task}, s.Due p task → s.Done p how task := by
    intro task hdue
    rcases hc.due hdue with hd | hd
    · exact hd
    · cases hd
  have arrived : ∀ x o, s.Receives x o → s.Holds x o := fun x o =>
    hc.balanced.holds_of_receives hs
  refine ⟨?_, fun hm hst => ?_, fun hm hst hx ho => ?_, fun he => done (.enter he),
    fun he => done (.bind he), fun hij o ho => ?_⟩
  · obtain ⟨c, hctx, hd | hd⟩ := hc.entry
    · exact ⟨c, hctx, hd⟩
    · cases hd
  · obtain ⟨st', hst', he⟩ := done (.execute hm hst)
    rw [hst] at hst'
    cases hst'
    exact he.mono (.refl s) arrived
  · obtain ⟨st', hst', hpass⟩ := done (.arrive ho hst hx)
    rw [hst] at hst'
    cases hst'
    exact hpass.mono (.refl s) arrived
  · rcases hc.balanced.flow hij ho with ho | ho
    · exact ho
    · exact absurd ho (Pending.not_mem_waiting_of_isEmpty hc.balanced.coherent hs _ o)

end ObjectFlow.PointsTo.State
