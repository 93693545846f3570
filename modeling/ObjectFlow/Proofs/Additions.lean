import ObjectFlow.Proofs.Draining

/-!
# What a task adds

Performing a task loses nothing, and what is new asks for the tasks it needs: that is
`perform_effect`. This module looks the other way and says where the new things come from. A method
becomes reachable because it is entered. A call is recorded at the statement that the task deals
with. A variable is met in the context of that statement, or in that of a method that a call there
leads to. An object is allocated by the statement, gets the next number, and takes its heap context
from the context of the method. `perform_adds` collects this for all tasks.

What holds at every point of a run follows by one induction over the tasks performed so far,
`Reaches.invariant`. Besides performing a task it has to deal with two changes that number nothing
and record no call: the arrival of objects, and an edge added by hand.
-/

namespace ObjectFlow.PointsTo

/-- The statement that a task deals with, in its context. -/
def Task.site? : Task → Option ContextSite
  | .execute c site | .arrive _ c site => some (c, site)
  | .bind e => some e.site
  | .enter .. => none

/-- The method that a statement belongs to, in the same context. -/
def enclosing (site : ContextSite) : ContextMethod := (site.1, site.2.method)

namespace State

/-! ## Pointers that are new -/

/-- A change after which objects and calls are the same and each new pointer satisfies `P`. Contexts
may be new, and so may flow and pending objects. -/
structure Wires (P : Pointer → Prop) (s t : State) : Prop where
  objects : t.arena.objects = s.arena.objects
  calls : t.calls = s.calls
  pointers : ∀ {i x}, t.arena.pointer i = .ok x → s.arena.pointer i = .ok x ∨ P x

section Wires

variable {P : Pointer → Prop} {s t u : State}

theorem Wires.refl (s : State) : Wires P s s := ⟨rfl, rfl, Or.inl⟩

theorem Wires.trans (hst : Wires P s t) (htu : Wires P t u) : Wires P s u :=
  ⟨htu.objects.trans hst.objects, htu.calls.trans hst.calls,
    fun h => (htu.pointers h).elim hst.pointers Or.inr⟩

theorem wires_contextId (s : State) (x : Context) : Wires P s (s.contextId x).2 :=
  ⟨rfl, rfl, Or.inl⟩

theorem wires_pointerId (s : State) {x : Pointer} (hx : P x) : Wires P s (s.pointerId x).2 := by
  refine ⟨s.arena.addPointer_objects x, rfl, fun {i y} hy => ?_⟩
  rcases finds_pointerId (r := .pointer i) ⟨y, hy⟩ with ⟨z, hz⟩ | hi
  · have hyz : (s.pointerId x).2.arena.pointer i = .ok z := (s.arena.pointerId_extends x).pointer hz
    rw [hy] at hyz
    cases hyz
    exact Or.inl hz
  · cases hi
    have hxy : (s.pointerId x).2.arena.pointer (s.pointerId x).1 = .ok x :=
      s.arena.pointer_pointerId x
    rw [hy] at hxy
    cases hxy
    exact Or.inr hx

theorem wires_send (s : State) (o : ObjId) {x : Pointer} (hx : P x) : Wires P s (s.send o x) := by
  obtain ⟨hobjects, hcalls, hpointers⟩ := s.wires_pointerId hx
  exact ⟨hobjects, hcalls, hpointers⟩

theorem wires_addFlow (s : State) (i j : PointerId) : Wires P s (s.addFlow i j) := by
  rw [addFlow_eq]
  split
  · exact .refl s
  · exact ⟨rfl, rfl, Or.inl⟩

theorem wires_connect (s : State) {x y : Pointer} (hx : P x) (hy : P y) :
    Wires P s (s.connect x y) :=
  (s.wires_pointerId hx).trans (((s.pointerId x).2.wires_pointerId hy).trans (wires_addFlow ..))

theorem wires_foldl_connect {α : Type} (f g : α → Pointer) :
    ∀ (as : List α) (s : State), (∀ a ∈ as, P (f a) ∧ P (g a)) →
      Wires P s (as.foldl (fun s a => s.connect (f a) (g a)) s)
  | [], s, _ => .refl s
  | a :: as, s, h => by
    obtain ⟨hf, hg⟩ := h a List.mem_cons_self
    exact (s.wires_connect hf hg).trans
      (wires_foldl_connect f g as _ fun b hb => h b (List.mem_cons_of_mem a hb))

end Wires

/-! ## Where new things come from -/

section Adds

variable (p : Program) (how : Sensitivity)

/-- A task concerns the method of the statement that it deals with, and the methods that calls there
lead to. -/
inductive Concerns (t : State) (task : Task) : ContextMethod → Prop
  | caller {site} : task.site? = some site → Concerns t task (enclosing site)
  | callee {e} : task.site? = some e.site → e ∈ t.calls.edges.toList → Concerns t task e.callee

/-- A pointer that is a variable belongs to a method that the task concerns. -/
def Touches (t : State) (task : Task) : Pointer → Prop
  | .var c v => ∃ m, p.Declares m v ∧ t.Concerns task (c, m)
  | .instanceField .. | .staticField _ | .elements _ => True

/-- What is in `t` was in `s` already, or is there because the task has been performed. -/
structure Adds (s : State) (task : Task) (next : List Task) (t : State) : Prop where
  reachable : ∀ {m}, m ∈ t.calls.reachable.toList →
    m ∈ s.calls.reachable.toList ∨ task = .enter m.1 m.2
  edges : ∀ {e}, e ∈ t.calls.edges.toList → e ∈ s.calls.edges.toList ∨ task.site? = some e.site
  pointers : ∀ {i x}, t.arena.pointer i = .ok x →
    s.arena.pointer i = .ok x ∨ t.Touches p task x
  objects : ∀ {o x}, t.arena.object o = .ok x → s.arena.object o = .ok x ∨
    o.index = s.arena.objects.size ∧ ∃ c context, task = .execute c x.site ∧
      s.arena.context c = .ok context ∧ t.arena.context x.context = .ok (how.heap context)
  next : ∀ {task'}, task' ∈ next →
    (∃ c site, task = .enter c site.method ∧ task' = .execute c site) ∨
      ∃ e ∈ t.calls.edges.toList, task.site? = some e.site ∧
        (task' = .enter e.callee.1 e.callee.2 ∨ task' = .bind e)

variable {p how} {s t u : State} {task : Task} {next : List Task}

theorem Wires.object (h : Wires (t.Touches p task) s u) {o : ObjId} {x : AbstractObject} :
    u.arena.object o = .ok x ↔ s.arena.object o = .ok x := by
  rw [Arena.object_eq_ok, Arena.object_eq_ok, h.objects]

theorem Wires.adds (h : Wires (t.Touches p task) s t) : Adds p how s task [] t :=
  ⟨fun hm => Or.inl (h.calls ▸ hm), fun he => Or.inl (h.calls ▸ he), h.pointers,
    fun ho => Or.inl (h.object.1 ho), by simp⟩

theorem connect_adds {x y : Pointer} (hx : (s.connect x y).Touches p task x)
    (hy : (s.connect x y).Touches p task y) : Adds p how s task [] (s.connect x y) :=
  (s.wires_connect hx hy).adds

/-- Pointers have been prepared and a call is recorded. -/
theorem Wires.adds_call (h : Wires (t.Touches p task) s u)
    {e : CallEdge ContextSite ContextMethod} (he : task.site? = some e.site)
    (ht : u.addCall e = (next, t)) : Adds p how s task next t := by
  rw [addCall_eq] at ht
  split at ht
  · cases ht
    exact h.adds
  · cases ht
    refine ⟨fun hm => Or.inl (h.calls ▸ hm), fun he' => ?_, h.pointers,
      fun ho => Or.inl (h.object.1 ho), fun htask => Or.inr ⟨e, ?_, he, by simpa using htask⟩⟩
    · rcases Roster.mem_insert.1 he' with he' | rfl
      · exact Or.inl (h.calls ▸ he')
      · exact Or.inr he
    · exact Roster.mem_insert.2 (Or.inr rfl)

theorem touches_stmt (hp : p.Accepted) {c : ContextId} {site : StmtId}
    (hsite : task.site? = some (c, site)) {st : Stmt} (hst : p.stmt site = .ok st) {v : VarId}
    (hv : v ∈ st.defined.toList ++ st.used) : t.Touches p task (.var c v) :=
  ⟨site.method, Program.declares_of_stmt hp hst hv, .caller hsite⟩

theorem touches_callee (hp : p.Accepted) {e : CallEdge ContextSite ContextMethod}
    (hsite : task.site? = some e.site) (he : e ∈ t.calls.edges.toList) {method : Method}
    (hm : p.method e.callee.2 = .ok method) {v : VarId}
    (hv : v ∈ method.decl.params ++ method.decl.this.toList) :
    t.Touches p task (.var e.callee.1 v) :=
  ⟨e.callee.2, Program.declares_of_method hp hm hv, .callee hsite he⟩

theorem touches_returned (hp : p.Accepted) {e : CallEdge ContextSite ContextMethod}
    (hsite : task.site? = some e.site) (he : e ∈ t.calls.edges.toList) {method : Method}
    (hm : p.method e.callee.2 = .ok method) {v : VarId} (hv : v ∈ method.returnVars) :
    t.Touches p task (.var e.callee.1 v) := by
  obtain ⟨site, hmethod, hst⟩ := (Program.mem_returnVars hp hm).1 hv
  exact ⟨e.callee.2, hmethod ▸ Program.declares_of_stmt hp hst (by simp [Stmt.used]),
    .callee hsite he⟩

/-- An object is added under the next number, unless it is there already. -/
theorem object_allocate {c : ContextId} {site : StmtId} {ty : Ty} {o o' : ObjId}
    {x : AbstractObject} (h : s.allocate p how c site ty = .ok (o, t))
    (hx : t.arena.object o' = .ok x) : s.arena.object o' = .ok x ∨
      o'.index = s.arena.objects.size ∧ ∃ context, x.site = site ∧
        s.arena.context c = .ok context ∧ t.arena.context x.context = .ok (how.heap context) := by
  obtain ⟨context, hc, h⟩ := bind_eq_ok.1 h
  obtain ⟨method, -, h⟩ := bind_eq_ok.1 h
  cases h
  rw [Arena.object_eq_ok] at hx
  change (s.arena.objects.insert _).get? o'.index = some x at hx
  rw [Roster.get?_insert] at hx
  split at hx
  · next hnew =>
    cases hx
    exact Or.inr ⟨hnew.2, context, rfl, hc, s.arena.context_contextId (how.heap context)⟩
  · exact Or.inl (Arena.object_eq_ok.2 hx)

theorem execute_adds (hp : p.Accepted) {c : ContextId} {site : StmtId} {st : Stmt}
    (hst : p.stmt site = .ok st) (h : s.execute p how c site st = .ok (next, t)) :
    Adds p how s (.execute c site) next t := by
  have hvar : ∀ {u : State} {v}, v ∈ st.defined.toList ++ st.used →
      u.Touches p (.execute c site) (.var c v) := fun hv => touches_stmt hp rfl hst hv
  cases st with
  | alloc lhs ty =>
    obtain ⟨⟨o, u⟩, hu, h⟩ := bind_eq_ok.1 h
    cases h
    obtain ⟨hprepares, -⟩ := allocate_prepares hu
    have hlhs : (u.send o (.var c lhs)).Touches p (.execute c site) (.var c lhs) :=
      hvar (by simp [Stmt.defined])
    have hwires := u.wires_send o hlhs
    have hpointers : u.arena.pointers = s.arena.pointers := by
      obtain ⟨context, -, hu⟩ := bind_eq_ok.1 hu
      obtain ⟨method, -, hu⟩ := bind_eq_ok.1 hu
      cases hu
      rfl
    refine ⟨fun hm => Or.inl (hprepares.calls ▸ hwires.calls ▸ hm),
      fun he => Or.inl (hprepares.calls ▸ hwires.calls ▸ he), fun hx => ?_, fun hx => ?_, by simp⟩
    · refine (hwires.pointers hx).imp_left fun hx => ?_
      rw [Arena.pointer_eq_ok] at hx ⊢
      rwa [← hpointers]
    · refine (object_allocate hu (hwires.object.1 hx)).imp_right ?_
      rintro ⟨hindex, context, rfl, hc, hheap⟩
      exact ⟨hindex, c, context, rfl, hc, (u.send_prepares o _).arena.context hheap⟩
  | copy lhs rhs =>
    cases h
    exact connect_adds (hvar (by simp [Stmt.used])) (hvar (by simp [Stmt.defined]))
  | cast lhs rhs ty =>
    cases h
    exact connect_adds (hvar (by simp [Stmt.used])) (hvar (by simp [Stmt.defined]))
  | loadField lhs access =>
    obtain ⟨base, f⟩ := access
    cases base <;> cases h
    · exact connect_adds trivial (hvar (by simp [Stmt.defined]))
    · exact (Wires.refl s).adds
  | storeField access rhs =>
    obtain ⟨base, f⟩ := access
    cases base <;> cases h
    · exact connect_adds (hvar (by simp [Stmt.used])) trivial
    · exact (Wires.refl s).adds
  | invoke call =>
    by_cases hk : call.isStatic = true
    · simp only [execute, hk, if_true] at h
      obtain ⟨r, -, h⟩ := bind_eq_ok.1 h
      cases r with
      | none => cases h
      | some m =>
        obtain ⟨context, -, h⟩ := bind_eq_ok.1 h
        exact (wires_contextId ..).adds_call rfl (pure_eq_ok.1 h)
    · simp only [execute, hk, if_false, Bool.false_eq_true] at h
      cases h
      exact (Wires.refl s).adds
  | _ =>
    cases h
    exact (Wires.refl s).adds

theorem dispatch_adds (hp : p.Accepted) {o : ObjId} {c : ContextId} {site : StmtId} {call : Invoke}
    (h : s.dispatch p how o c site call = .ok (next, t)) :
    Adds p how s (.arrive o c site) next t := by
  obtain ⟨obj, -, h⟩ := bind_eq_ok.1 h
  obtain ⟨r, -, h⟩ := bind_eq_ok.1 h
  cases r with
  | none =>
    cases h
    exact (Wires.refl s).adds
  | some m =>
    obtain ⟨heap, -, h⟩ := bind_eq_ok.1 h
    obtain ⟨context, -, h⟩ := bind_eq_ok.1 h
    obtain ⟨method, hm, h⟩ := bind_eq_ok.1 h
    have h := pure_eq_ok.1 h
    refine Wires.adds_call ((s.wires_contextId (how.afterCall context site
      ⟨o, obj.container, heap⟩)).trans ?_) rfl h
    cases hthis : method.decl.this with
    | none => exact .refl _
    | some this =>
      refine wires_send _ o (touches_callee hp (e := ⟨_, (c, site), (_, m)⟩) rfl
        (addCall_effect (p := p) h).2 hm ?_)
      simp [hthis]

theorem arrive_adds (hp : p.Accepted) {o : ObjId} {c : ContextId} {site : StmtId} {st : Stmt}
    (hst : p.stmt site = .ok st) (h : s.arrive p how o c site st = .ok (next, t)) :
    Adds p how s (.arrive o c site) next t := by
  have hvar : ∀ {u : State} {v}, v ∈ st.defined.toList ++ st.used →
      u.Touches p (.arrive o c site) (.var c v) := fun hv => touches_stmt hp rfl hst hv
  cases st with
  | storeField access rhs =>
    cases h
    exact connect_adds (hvar (by simp [Stmt.used])) trivial
  | loadField lhs access =>
    cases h
    exact connect_adds trivial (hvar (by simp [Stmt.defined]))
  | storeArray base index rhs =>
    cases h
    exact connect_adds (hvar (by simp [Stmt.used])) trivial
  | loadArray lhs base index =>
    cases h
    exact connect_adds trivial (hvar (by simp [Stmt.defined]))
  | invoke call => exact dispatch_adds hp h
  | _ =>
    cases h
    exact (Wires.refl s).adds

theorem bind_adds (hp : p.Accepted) {e : CallEdge ContextSite ContextMethod}
    (he : e ∈ s.calls.edges.toList) (h : s.bind p e = .ok t) : Adds p how s (.bind e) [] t := by
  have het : e ∈ t.calls.edges.toList := (bind_prepares h).1.edges he
  obtain ⟨kind, ⟨caller, site⟩, callee, m⟩ := e
  obtain ⟨r, hr, h⟩ := bind_eq_ok.1 h
  obtain ⟨st, hst, hcall⟩ := Program.invoke?_eq_ok.1 hr
  cases r with
  | none => cases h
  | some call =>
    obtain rfl : st = .invoke call := by
      cases st <;> simp_all [Stmt.call?]
    obtain ⟨method, hm, h⟩ := bind_eq_ok.1 h
    have hargs : Wires (t.Touches p (.bind ⟨kind, (caller, site), (callee, m)⟩)) s _ :=
      wires_foldl_connect (fun a => .var caller a.1) (fun a => .var callee a.2)
        (call.args.zip method.decl.params) s fun a ha =>
          ⟨touches_stmt hp rfl hst (by simp [Stmt.used, (List.of_mem_zip ha).1]),
            touches_callee hp rfl het hm (List.mem_append_left _ (List.of_mem_zip ha).2)⟩
    cases hresult : call.result with
    | none =>
      simp only [hresult] at h
      cases h
      exact hargs.adds
    | some lhs =>
      have hlhs : t.Touches p (.bind ⟨kind, (caller, site), (callee, m)⟩) (.var caller lhs) :=
        touches_stmt hp rfl hst (by simp [Stmt.defined, hresult])
      simp only [hresult] at h
      cases h
      refine (hargs.trans ((wires_pointerId _ hlhs).trans (wires_foldl_connect (.var callee ·)
        (fun _ => .var caller lhs) method.returnVars _ fun v hv => ⟨?_, hlhs⟩))).adds
      exact touches_returned hp rfl het hm hv

/-- **What a task adds.** A call that is bound has been recorded before. -/
theorem perform_adds (hp : p.Accepted) (hbind : ∀ e, task = .bind e → e ∈ s.calls.edges.toList)
    (h : s.perform p how task = .ok (next, t)) : Adds p how s task next t := by
  cases task with
  | enter c m =>
    by_cases hr : s.calls.isReachable (c, m) = true
    · simp only [perform_enter, hr, if_true] at h
      cases h
      exact (Wires.refl s).adds
    · simp only [perform_enter, hr, if_false, Bool.false_eq_true] at h
      obtain ⟨method, hm, h⟩ := bind_eq_ok.1 h
      cases h
      refine ⟨fun hm => ?_, Or.inl, Or.inl, Or.inl, fun htask => ?_⟩
      · rcases Roster.mem_insert.1 hm with hm | rfl
        · exact Or.inl hm
        · exact Or.inr rfl
      · obtain ⟨⟨site, st⟩, hmem, rfl⟩ := List.mem_map.1 htask
        obtain ⟨rfl, -⟩ := (Program.mem_stmts hp hm).1 hmem
        exact Or.inl ⟨c, site, rfl, rfl⟩
  | execute c site =>
    obtain ⟨st, hst, h⟩ := bind_eq_ok.1 h
    exact execute_adds hp hst h
  | arrive o c site =>
    obtain ⟨st, hst, h⟩ := bind_eq_ok.1 h
    exact arrive_adds hp hst h
  | bind e =>
    obtain ⟨u, hu, h⟩ := bind_eq_ok.1 h
    cases h
    exact bind_adds hp (hbind e rfl) hu

end Adds

/-! ## Points of a run -/

/-- A change that numbers nothing and records no method or call. -/
structure Calm (s t : State) : Prop where
  contexts : t.arena.contexts = s.arena.contexts
  objects : t.arena.objects = s.arena.objects
  pointers : t.arena.pointers = s.arena.pointers
  calls : t.calls = s.calls

/-- Each of the tasks lets an object go through a statement that uses a variable met before. -/
def Arrivals (p : Program) (s : State) (tasks : List Task) : Prop :=
  ∀ task ∈ tasks, ∃ i o c v site st, s.arena.pointer i = .ok (.var c v) ∧ p.stmt site = .ok st ∧
    st.through = some v ∧ task = .arrive o c site

section Invariant

variable {p : Program} {how : Sensitivity} {extra : List (Place × Place)} {s t : State}
  {Inv : State → List Task → Prop}

theorem Calm.context (h : Calm s t) (c : ContextId) : t.arena.context c = s.arena.context c := by
  rw [Arena.context, h.contexts, Arena.context]

theorem Calm.object (h : Calm s t) (o : ObjId) : t.arena.object o = s.arena.object o := by
  rw [Arena.object, h.objects, Arena.object]

theorem Calm.pointer (h : Calm s t) (i : PointerId) : t.arena.pointer i = s.arena.pointer i := by
  rw [Arena.pointer, h.pointers, Arena.pointer]

theorem calm_arrival (s : State) (i : PointerId) (objects : ObjectSet) (rest : Pending) :
    Calm s (s.arrival i objects rest).2 :=
  ⟨rfl, rfl, rfl, rfl⟩

theorem calm_addFlow (s : State) (i j : PointerId) : Calm s (s.addFlow i j) := by
  rw [addFlow_eq]
  split <;> exact ⟨rfl, rfl, rfl, rfl⟩

theorem arrivals_of_reactions (hp : p.Accepted) {i : PointerId} {objects : ObjectSet}
    {rest : Pending} {order : List ObjId} {tasks : List Task}
    (h : (s.arrival i objects rest).2.reactions p i order = .ok tasks) : Arrivals p s tasks := by
  intro task htask
  obtain ⟨o, c, v, site, st, hi, -, hst, hv, rfl⟩ := (mem_reactions hp h).1 htask
  exact ⟨i, o, c, v, site, st, hi, hst, hv, rfl⟩

/-- What performing a task keeps holds after all tasks have been performed. -/
theorem drain_invariant (hp : p.Accepted)
    (hperform : ∀ {s t task next rest}, s.Grounded p how extra → Inv s (task :: rest) →
      s.perform p how task = .ok (next, t) → Inv t (next ++ rest)) :
    ∀ {limit : Nat} {tasks : List Task} {s t : State}, s.Grounded p how extra →
      (∀ task ∈ tasks, s.Justified p how extra task) → Inv s tasks →
      drain p how limit tasks s = .ok t → Inv t []
  | 0, [], _, _, _, _, hs, h => by
    cases h
    exact hs
  | _ + 1, [], _, _, _, _, hs, h => by
    cases h
    exact hs
  | 0, _ :: _, _, _, _, _, _, h => by cases h
  | limit + 1, task :: tasks, s, t, hg, hj, hs, h => by
    obtain ⟨next, u, hrun, hu, hnext⟩ := hg.perform hp (hj task List.mem_cons_self)
    obtain ⟨⟨next', u'⟩, hrun', h⟩ := bind_eq_ok.1 h
    rw [hrun] at hrun'
    cases hrun'
    have hext := (perform_effect hp hrun).1.arena
    refine drain_invariant hp hperform hu (fun task' htask' => ?_) (hperform hg hs hrun) h
    rcases List.mem_append.1 htask' with htask' | htask'
    · exact hnext task' htask'
    · exact (hj task' (List.mem_cons_of_mem task htask')).mono hext

/-- **Invariants of a run.** A property of a state and of the tasks that have to be performed next
holds whenever a step has ended, if it holds when the entry method is about to be entered, and both
performing a task and a calm change keep it. -/
theorem Reaches.invariant (hp : p.Accepted)
    (hopening : ∀ discipline,
      Inv (opening p how discipline) [.enter (entryContext how discipline) p.entry])
    (hperform : ∀ {s t task next rest}, s.Grounded p how extra → Inv s (task :: rest) →
      s.perform p how task = .ok (next, t) → Inv t (next ++ rest))
    (hcalm : ∀ {s t tasks}, Inv s [] → Calm s t → Arrivals p s tasks → Inv t tasks)
    (h : Reaches p how (Between extra) s) : Inv s [] := by
  induction h with
  | @start discipline _ _ hs =>
    rw [start_eq] at hs
    refine drain_invariant hp hperform grounded_opening (fun task htask => ?_)
      (hopening discipline) hs
    obtain rfl := List.mem_singleton.1 htask
    exact ⟨_, .reachable p.entry ⟨_, context_entryContext, Arena.tells_start⟩, .entry⟩
  | step hr ha ih =>
    obtain ⟨i, objects, rest, order, ht, horder, tasks, limit, hreact, hd⟩ := ha
    have hb := balanced_of_reaches hp hr
    have hg := (grounded_of_reaches hp hr).arrival hb ht
    obtain ⟨x, hx⟩ := exists_pointer_of_takes hb ht
    obtain ⟨tasks', hreact', hj⟩ := hg.reactions hp ((arrival_extends hb ht).arena.pointer hx) order
      (knows_of_mem_order hb ht horder)
    rw [hreact] at hreact'
    cases hreact'
    exact drain_invariant hp hperform hg hj
      (hcalm ih (calm_arrival ..) (arrivals_of_reactions hp hreact)) hd
  | addFlow _ _ _ _ ih => exact hcalm ih (calm_addFlow ..) (by simp [Arrivals])

end Invariant

/-- The state after some steps of a run that starts at the entry. -/
theorem exists_reaches (p : Program) (how : Sensitivity) (discipline : Discipline)
    (limit steps : Nat) (test : State → Bool)
    (h : ((initial how discipline).start p how limit >>= run p how limit steps).toOption.any
      (fun r => test r.2) = true) :
    ∃ s, Reaches p how anyExtra s ∧ test s = true := by
  obtain ⟨⟨n, t⟩, hrun, htest⟩ := exists_ok_of_any _ _ h
  obtain ⟨s, hs, ht⟩ := bind_eq_ok.1 hrun
  exact ⟨t, Reaches.run (.start hs) ht, htest⟩

end State

end ObjectFlow.PointsTo
