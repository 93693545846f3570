import ObjectFlow.Proofs.Additions
import ObjectFlow.Proofs.Aliases
import ObjectFlow.Proofs.CallEdges
import ObjectFlow.Proofs.Neighbours
import ObjectFlow.Proofs.Safety

/-!
# Every reachable method is called from the entry

A chain of a call graph starts at an entry and goes from call to call, each made by the method that
the one before has led to. In a connected graph (`CallGraph.Connected`) there is such a chain to
every reachable method, and edges lead from reachable methods to reachable methods. An image of a
connected graph is connected, so what is shown of methods in their contexts holds of methods alone.

The call graph of a points-to analysis is connected whenever a step has ended. While tasks are being
performed a callee may be about to be entered (`State.Expects`). That there is a chain to what is
expected, that variables are met only in contexts in which their method is expected, and that the
tasks deal with statements of reachable methods is the invariant `State.Anchored`.
-/

namespace ObjectFlow

/-! ## Connected call graphs -/

namespace CallGraph

variable {σ μ σ' μ' : Type} [Keyed σ] [Keyed μ] [Keyed σ'] [Keyed μ']

section Chain

variable (g : CallGraph σ μ) (inside : σ → μ)

/-- Calls lead from an entry to a method, each of them made inside the method that the one before
has led to. The sites are listed with the newest one first. -/
inductive Chain : List σ → μ → Prop
  | entry {m} : m ∈ g.entries.toList → Chain [] m
  | call {sites e} : Chain sites (inside e.site) → e ∈ g.edges.toList →
      Chain (e.site :: sites) e.callee

/-- Edges lead from reachable methods to reachable methods and have the kind of their call, and
every reachable method is at the end of a chain. -/
structure Connected (p : Program) (stmt : σ → StmtId) : Prop where
  callers : ∀ e ∈ g.edges.toList, inside e.site ∈ g.reachable.toList
  callees : ∀ e ∈ g.edges.toList, e.callee ∈ g.reachable.toList
  kinds : ∀ e ∈ g.edges.toList, ∃ call, p.stmt (stmt e.site) = .ok (.invoke call) ∧
    call.kind = e.kind
  linked : ∀ m ∈ g.reachable.toList, ∃ sites, g.Chain inside sites m

/-- Methods and edges are listed once, and the edges can be found from their sites and from their
callees, in tables that they have been entered into as they came. -/
structure Listed [DecidableEq σ] [DecidableEq μ] : Prop where
  reachable : g.reachable.toList.Nodup
  edges : g.edges.toList.Nodup
  nodup_callees : ∀ site, (g.callees site).Nodup
  mem_callees : ∀ site m, m ∈ g.callees site ↔ ∃ kind, ⟨kind, site, m⟩ ∈ g.edges.toList
  nodup_callers : ∀ m, (g.callers m).Nodup
  mem_callers : ∀ m site, site ∈ g.callers m ↔ ∃ kind, ⟨kind, site, m⟩ ∈ g.edges.toList
  tables : ∀ asked, (Roster.ofList asked).toList = g.edges.toList →
    (Tables.ofEdges asked).edges.toList = g.edges.toList ∧
    (∀ site, (Tables.ofEdges asked).callees.getD site [] = g.callees site) ∧
    ∀ m, (Tables.ofEdges asked).callers.getD m [] = g.callers m

end Chain

variable {g h : CallGraph σ μ} {inside : σ → μ} {inside' : σ' → μ'} {p : Program}
  {stmt : σ → StmtId} {stmt' : σ' → StmtId} {onSite : σ → σ'} {onMethod : μ → μ'}

theorem Chain.mono (hentries : ∀ m ∈ g.entries.toList, m ∈ h.entries.toList)
    (hedges : ∀ e ∈ g.edges.toList, e ∈ h.edges.toList) {sites : List σ} {m : μ}
    (hc : g.Chain inside sites m) : h.Chain inside sites m := by
  induction hc with
  | entry hm => exact .entry (hentries _ hm)
  | call _ he ih => exact .call ih (hedges _ he)

theorem mem_edges_project {e : CallEdge σ' μ'} : e ∈ (g.project onSite onMethod).edges.toList ↔
    ∃ e' ∈ g.edges.toList, ⟨e'.kind, onSite e'.site, onMethod e'.callee⟩ = e := by
  rw [project, Roster.mem_ofList, List.mem_map]

theorem mem_reachable_project {m : μ'} : m ∈ (g.project onSite onMethod).reachable.toList ↔
    ∃ m' ∈ g.reachable.toList, onMethod m' = m := by
  rw [project, Roster.mem_ofList, List.mem_map]

section Project

variable (hinside : ∀ site, onMethod (inside site) = inside' (onSite site))
include hinside

theorem Chain.project {sites : List σ} {m : μ} (hc : g.Chain inside sites m) :
    (g.project onSite onMethod).Chain inside' (sites.map onSite) (onMethod m) := by
  induction hc with
  | @entry m hm =>
    refine .entry ?_
    rw [CallGraph.project, Roster.mem_ofList]
    exact List.mem_map_of_mem hm
  | @call sites e _ he ih =>
    rw [hinside] at ih
    exact .call (e := ⟨e.kind, onSite e.site, onMethod e.callee⟩) ih
      (mem_edges_project.2 ⟨e, he, rfl⟩)

/-- An image of a connected graph is connected. -/
theorem Connected.project (hstmt : ∀ site, stmt' (onSite site) = stmt site)
    (hg : g.Connected inside p stmt) :
    (g.project onSite onMethod).Connected inside' p stmt' := by
  refine ⟨fun e he => ?_, fun e he => ?_, fun e he => ?_, fun m hm => ?_⟩
  · obtain ⟨e', he', rfl⟩ := mem_edges_project.1 he
    exact mem_reachable_project.2 ⟨_, hg.callers e' he', hinside e'.site⟩
  · obtain ⟨e', he', rfl⟩ := mem_edges_project.1 he
    exact mem_reachable_project.2 ⟨_, hg.callees e' he', rfl⟩
  · obtain ⟨e', he', rfl⟩ := mem_edges_project.1 he
    show ∃ call, p.stmt (stmt' (onSite e'.site)) = _ ∧ _
    rw [hstmt]
    exact hg.kinds e' he'
  · obtain ⟨m', hm', rfl⟩ := mem_reachable_project.1 hm
    obtain ⟨sites, hc⟩ := hg.linked m' hm'
    exact ⟨_, hc.project hinside⟩

end Project

/-- The kind of an edge is that of its call, so site and callee determine the edge. -/
theorem Connected.ext (hg : g.Connected inside p stmt) {e e' : CallEdge σ μ}
    (he : e ∈ g.edges.toList) (he' : e' ∈ g.edges.toList) (hsite : e.site = e'.site)
    (hcallee : e.callee = e'.callee) : e = e' := by
  obtain ⟨call, hst, hkind⟩ := hg.kinds e he
  obtain ⟨call', hst', hkind'⟩ := hg.kinds e' he'
  rw [← hsite, hst] at hst'
  cases hst'
  obtain ⟨_, _, _⟩ := e
  obtain ⟨_, _, _⟩ := e'
  simp_all

theorem mem_callees_iff [DecidableEq σ] {site : σ} {m : μ} :
    m ∈ g.callees site ↔ ∃ kind, ⟨kind, site, m⟩ ∈ g.edges.toList := by
  simp only [callees, List.mem_map, List.mem_filter, decide_eq_true_eq]
  constructor
  · rintro ⟨e, ⟨he, rfl⟩, rfl⟩
    exact ⟨e.kind, he⟩
  · rintro ⟨kind, he⟩
    exact ⟨_, ⟨he, rfl⟩, rfl⟩

theorem mem_callers_iff [DecidableEq μ] {site : σ} {m : μ} :
    site ∈ g.callers m ↔ ∃ kind, ⟨kind, site, m⟩ ∈ g.edges.toList := by
  simp only [callers, List.mem_map, List.mem_filter, decide_eq_true_eq]
  constructor
  · rintro ⟨e, ⟨he, rfl⟩, rfl⟩
    exact ⟨e.kind, he⟩
  · rintro ⟨kind, he⟩
    exact ⟨_, ⟨he, rfl⟩, rfl⟩

theorem Connected.nodup_callees [DecidableEq σ] (hg : g.Connected inside p stmt) (site : σ) :
    (g.callees site).Nodup := by
  rw [CallGraph.callees]
  refine List.Nodup.map_on (fun e he e' he' hcallee => ?_) (g.edges.nodup_toList.filter _)
  simp only [List.mem_filter, decide_eq_true_eq] at he he'
  exact hg.ext he.1 he'.1 (he.2.trans he'.2.symm) hcallee

theorem Connected.nodup_callers [DecidableEq μ] (hg : g.Connected inside p stmt) (m : μ) :
    (g.callers m).Nodup := by
  rw [CallGraph.callers]
  refine List.Nodup.map_on (fun e he e' he' hsite => ?_) (g.edges.nodup_toList.filter _)
  simp only [List.mem_filter, decide_eq_true_eq] at he he'
  exact hg.ext he.1 he'.1 hsite (he.2.trans he'.2.symm)

theorem Connected.listed [DecidableEq σ] [DecidableEq μ] (hg : g.Connected inside p stmt) :
    g.Listed :=
  ⟨g.reachable.nodup_toList, g.edges.nodup_toList, hg.nodup_callees, fun _ _ => mem_callees_iff,
    hg.nodup_callers, fun _ _ => mem_callers_iff, fun _ => tables_ofEdges⟩

end CallGraph

namespace PointsTo

namespace State

/-! ## The invariant -/

/-- A method is reachable or about to be entered. -/
def Expects (s : State) (tasks : List Task) (m : ContextMethod) : Prop :=
  m ∈ s.calls.reachable.toList ∨ .enter m.1 m.2 ∈ tasks

/-- Everything that has been met hangs together with the entry, if the tasks are performed next. -/
structure Anchored (p : Program) (how : Sensitivity) (s : State) (tasks : List Task) : Prop where
  entry : ∃ c, s.arena.context c = .ok how.start ∧ s.calls.entries.toList = [(c, p.entry)]
  linked : ∀ {m}, s.Expects tasks m → ∃ sites, s.calls.Chain enclosing sites m
  callers : ∀ {e}, e ∈ s.calls.edges.toList → enclosing e.site ∈ s.calls.reachable.toList
  callees : ∀ {e}, e ∈ s.calls.edges.toList → s.Expects tasks e.callee
  vars : ∀ {i c v}, s.arena.pointer i = .ok (.var c v) →
    ∃ m, p.Declares m v ∧ s.Expects tasks (c, m)
  objects : ∀ {o x}, s.arena.object o = .ok x → ∃ c context,
    (c, x.site.method) ∈ s.calls.reachable.toList ∧ s.arena.context c = .ok context ∧
      s.arena.context x.context = .ok (how.heap context)
  located : ∀ {task site}, task ∈ tasks → task.site? = some site →
    enclosing site ∈ s.calls.reachable.toList
  bound : ∀ {e}, .bind e ∈ tasks → e ∈ s.calls.edges.toList

variable {p : Program} {how : Sensitivity} {extra : List (Place × Place)} {s t : State}
  {task : Task} {tasks next : List Task}

theorem anchored_opening (discipline : Discipline) :
    Anchored p how (opening p how discipline) [.enter (entryContext how discipline) p.entry] := by
  refine ⟨⟨entryContext how discipline, context_entryContext, rfl⟩, fun {m} hm => ?_,
    fun he => ?_, fun he => ?_, fun hx => ?_, fun hx => ?_, fun htask hsite => ?_, fun he => ?_⟩
  · rcases hm with hm | hm
    · cases hm
    · obtain ⟨hc, hm⟩ := Task.enter.inj (List.mem_singleton.1 hm)
      exact ⟨[], .entry (List.mem_singleton.2 (Prod.ext hc hm))⟩
  · cases he
  · cases he
  · exact absurd hx pointer_opening
  · cases Arena.object_eq_ok.1 hx
  · cases List.mem_singleton.1 htask
    cases hsite
  · cases List.mem_singleton.1 he

section Perform

variable (hs : s.Anchored p how (task :: tasks)) (heffect : Effect p s next t)
  (hdone : t.Done p how task) (hadds : Adds p how s task next t)

include heffect in
theorem chain_of_effect {sites : List ContextSite} {m : ContextMethod}
    (h : s.calls.Chain enclosing sites m) : t.calls.Chain enclosing sites m :=
  h.mono (fun _ hm => heffect.entries ▸ hm) fun _ he => heffect.edges he

include heffect hdone in
/-- What is expected before a task is performed is expected afterwards. -/
theorem expects_of_effect {m : ContextMethod} (h : s.Expects (task :: tasks) m) :
    t.Expects (next ++ tasks) m := by
  rcases h with h | h
  · exact Or.inl (heffect.reachable h)
  · rcases List.mem_cons.1 h with rfl | h
    · exact Or.inl hdone
    · exact Or.inr (List.mem_append_right next h)

include hs heffect hdone in
theorem callees_of_effect {e : CallEdge ContextSite ContextMethod}
    (he : e ∈ t.calls.edges.toList) : t.Expects (next ++ tasks) e.callee := by
  rcases heffect.newEdges he with he | ⟨henter, -⟩
  · exact expects_of_effect heffect hdone (hs.callees he)
  · exact Or.inr (List.mem_append_left tasks henter)

include hs heffect hdone in
theorem expects_of_concerns {m : ContextMethod} (h : t.Concerns task m) :
    t.Expects (next ++ tasks) m := by
  cases h with
  | caller hsite => exact Or.inl (heffect.reachable (hs.located List.mem_cons_self hsite))
  | callee _ he => exact callees_of_effect hs heffect hdone he

include hs heffect hadds in
theorem linked_of_adds {m : ContextMethod} (hm : t.Expects (next ++ tasks) m) :
    ∃ sites, t.calls.Chain enclosing sites m := by
  have hold : ∀ {m}, s.Expects (task :: tasks) m → ∃ sites, t.calls.Chain enclosing sites m := by
    intro m hm
    obtain ⟨sites, hc⟩ := hs.linked hm
    exact ⟨sites, chain_of_effect heffect hc⟩
  rcases hm with hm | hm
  · rcases hadds.reachable hm with hm | rfl
    · exact hold (Or.inl hm)
    · exact hold (Or.inr List.mem_cons_self)
  · rcases List.mem_append.1 hm with hm | hm
    · -- What is newly entered is led to by a call of the statement that the task deals with.
      rcases hadds.next hm with ⟨c, site, -, heq⟩ | ⟨e, he, hsite, heq | heq⟩
      · cases heq
      · obtain ⟨c, m⟩ := m
        cases heq
        obtain ⟨sites, hc⟩ := hold (Or.inl (hs.located List.mem_cons_self hsite))
        exact ⟨e.site :: sites, .call hc he⟩
      · cases heq
    · exact hold (Or.inr (List.mem_cons_of_mem task hm))

include hs heffect hdone hadds in
theorem located_of_adds {task' : Task} {site : ContextSite} (htask : task' ∈ next ++ tasks)
    (hsite : task'.site? = some site) : enclosing site ∈ t.calls.reachable.toList := by
  rcases List.mem_append.1 htask with htask | htask
  · rcases hadds.next htask with ⟨c, stmt, rfl, rfl⟩ | ⟨e, -, he, rfl | rfl⟩
    · cases hsite
      exact hdone
    · cases hsite
    · cases hsite
      exact heffect.reachable (hs.located List.mem_cons_self he)
  · exact heffect.reachable (hs.located (List.mem_cons_of_mem task htask) hsite)

end Perform

theorem Anchored.perform (hp : p.Accepted) (hs : s.Anchored p how (task :: tasks))
    (h : s.perform p how task = .ok (next, t)) : t.Anchored p how (next ++ tasks) := by
  obtain ⟨heffect, hdone⟩ := perform_effect hp h
  have hadds := perform_adds hp (fun e he => hs.bound (he ▸ List.mem_cons_self)) h
  refine ⟨?_, linked_of_adds hs heffect hadds, fun he => ?_, callees_of_effect hs heffect hdone,
    fun hx => ?_, fun ho => ?_, located_of_adds hs heffect hdone hadds, fun he => ?_⟩
  · obtain ⟨c, hc, hentries⟩ := hs.entry
    exact ⟨c, heffect.arena.context hc, heffect.entries ▸ hentries⟩
  · refine heffect.reachable ?_
    rcases hadds.edges he with he | hsite
    · exact hs.callers he
    · exact hs.located List.mem_cons_self hsite
  · rcases hadds.pointers hx with hx | ⟨m, hv, hm⟩
    · obtain ⟨m, hv, hm⟩ := hs.vars hx
      exact ⟨m, hv, expects_of_effect heffect hdone hm⟩
    · exact ⟨m, hv, expects_of_concerns hs heffect hdone hm⟩
  · rcases hadds.objects ho with ho | ⟨-, c, context, rfl, hc, hheap⟩
    · obtain ⟨c, context, hm, hc, hheap⟩ := hs.objects ho
      exact ⟨c, context, heffect.reachable hm, heffect.arena.context hc,
        heffect.arena.context hheap⟩
    · exact ⟨c, context, heffect.reachable (hs.located List.mem_cons_self rfl),
        heffect.arena.context hc, hheap⟩
  · rcases List.mem_append.1 he with he | he
    · rcases hadds.next he with ⟨c, site, -, heq⟩ | ⟨e', he', -, heq | heq⟩
      · cases heq
      · cases heq
      · cases heq
        exact he'
    · exact heffect.edges (hs.bound (List.mem_cons_of_mem task he))

theorem Expects.reachable {m : ContextMethod} (h : s.Expects [] m) :
    m ∈ s.calls.reachable.toList :=
  h.resolve_right (by simp)

/-- A variable through which objects go belongs to the method of the statement. -/
theorem Anchored.calm (hp : p.Accepted) (hs : s.Anchored p how []) (h : Calm s t)
    (htasks : Arrivals p s tasks) : t.Anchored p how tasks := by
  have hexpects : ∀ {m}, t.Expects tasks m ↔ m ∈ s.calls.reachable.toList := by
    intro m
    rw [Expects, h.calls]
    refine ⟨fun hm => hm.resolve_right fun henter => ?_, Or.inl⟩
    obtain ⟨_, _, _, _, _, _, -, -, -, heq⟩ := htasks _ henter
    cases heq
  refine ⟨?_, fun hm => ?_, fun he => ?_, fun he => hexpects.2 ?_, fun hx => ?_, fun ho => ?_,
    fun htask hsite => ?_, fun he => ?_⟩
  · simpa only [h.calls, h.context] using hs.entry
  · rw [h.calls]
    exact hs.linked (Or.inl (hexpects.1 hm))
  · rw [h.calls] at he ⊢
    exact hs.callers he
  · rw [h.calls] at he
    exact (hs.callees he).reachable
  · rw [h.pointer] at hx
    obtain ⟨m, hv, hm⟩ := hs.vars hx
    exact ⟨m, hv, hexpects.2 hm.reachable⟩
  · rw [h.object] at ho
    simpa only [h.calls, h.context] using hs.objects ho
  · obtain ⟨i, o, c, v, site, st, hx, hst, hv, rfl⟩ := htasks _ htask
    cases hsite
    obtain ⟨m, hdeclares, hm⟩ := hs.vars hx
    have hsite := Program.declares_of_stmt hp hst
      (List.mem_append_right _ (Stmt.mem_used_of_through hv))
    obtain rfl := hdeclares.inj hsite
    rw [h.calls]
    exact hm.reachable
  · obtain ⟨_, _, _, _, _, _, -, -, -, heq⟩ := htasks _ he
    cases heq

theorem anchored_of_reaches (hp : p.Accepted) (h : Reaches p how anyExtra s) :
    s.Anchored p how [] := by
  obtain ⟨extra, h⟩ := exists_extra hp h
  exact h.invariant hp anchored_opening (fun _ hs hrun => hs.perform hp hrun)
    fun hs hcalm htasks => hs.calm hp hcalm htasks

theorem Anchored.connected (hs : s.Anchored p how []) (hg : s.Grounded p how extra) :
    s.calls.Connected enclosing p Prod.snd := by
  refine ⟨fun e he => hs.callers he, fun e he => (hs.callees he).reachable, fun e he => ?_,
    fun m hm => hs.linked (Or.inl hm)⟩
  obtain ⟨f, hres, hd⟩ := hg (.call e) he
  cases hres with
  | call =>
    obtain ⟨call, hst, hkind, -⟩ := hd.call_cases
    exact ⟨call, hst, hkind⟩

end State

/-! ## Contexts of variables -/

namespace Result

variable {s : State} {metrics : Bool} {v : VarId}

theorem nodup_pointerEntries (a : Arena) : a.pointerEntries.Nodup := by
  refine List.Nodup.of_map Prod.snd ?_
  have hsnd : a.pointerEntries.map Prod.snd = a.pointers.toList := by
    simp [Arena.pointerEntries, List.map_map, Function.comp_def, List.zipIdx_map_fst]
  rw [hsnd]
  exact a.pointers.nodup_toList

theorem variableEntry_eq_some {e : PointerId × Pointer} {v : VarId} {c : ContextId}
    {i : PointerId} : variableEntry e = some (v, c, i) ↔ e = (i, .var c v) := by
  obtain ⟨j, x⟩ := e
  cases x with
  | var d w =>
    simp only [variableEntry, Option.some.injEq, Prod.mk.injEq, Pointer.var.injEq]
    constructor
    · rintro ⟨hw, hd, hj⟩
      exact ⟨hj, hd, hw⟩
    · rintro ⟨hj, hd, hw⟩
      exact ⟨hw, hd, hj⟩
  | _ => simp [variableEntry]

theorem mem_variableEntries {a : Arena} {v : VarId} {c : ContextId} {i : PointerId} :
    (v, c, i) ∈ a.pointerEntries.filterMap variableEntry ↔ a.pointer i = .ok (.var c v) := by
  rw [← mem_pointerEntries]
  simp [List.mem_filterMap, variableEntry_eq_some]

/-- A variable has one pointer in each of its contexts. -/
theorem nodup_contexts : (((ofState s metrics).varPointers.getD v []).map Prod.fst).Nodup := by
  have hentries : (s.arena.pointerEntries.filterMap variableEntry).Nodup := by
    refine (nodup_pointerEntries s.arena).filterMap fun e e' b hb hb' => ?_
    obtain ⟨w, c, i⟩ := b
    rw [variableEntry_eq_some.1 hb, variableEntry_eq_some.1 hb']
  rw [ofState, getD_map_groupBy, List.map_map]
  refine List.Nodup.map_on ?_ (hentries.filter _)
  rintro ⟨w, c, i⟩ hx ⟨w', c', i'⟩ hy hc
  simp only [List.mem_filter, decide_eq_true_eq, mem_variableEntries] at hx hy
  obtain ⟨hx, rfl⟩ := hx
  obtain ⟨hy, rfl⟩ := hy
  obtain rfl : c = c' := hc
  rw [Arena.pointer_inj hx hy]

theorem mem_contextsOf {c : ContextId} :
    c ∈ (ofState s metrics).contextsOf v ↔ ∃ i, s.arena.pointer i = .ok (.var c v) := by
  simp only [contextsOf, Std.ExtTreeSet.mem_toList, Std.ExtTreeSet.mem_ofList,
    List.contains_iff_mem, List.mem_map, Prod.exists, exists_and_right, exists_eq_right,
    mem_varPointers]

theorem nodup_contextsOf (r : Result) : (r.contextsOf v).Nodup :=
  Std.ExtTreeSet.distinct_toList.imp fun hne heq => hne (Std.LawfulEqOrd.compare_eq_iff_eq.2 heq)

theorem contextsOf_perm :
    ((ofState s metrics).contextsOf v).Perm
      (((ofState s metrics).varPointers.getD v []).map Prod.fst) := by
  refine (List.perm_ext_iff_of_nodup (nodup_contextsOf _) nodup_contexts).2 fun c => ?_
  rw [mem_contextsOf, List.mem_map]
  simp only [Prod.exists, exists_and_right, exists_eq_right, mem_varPointers]

end Result

/-- A variable is met only in contexts in which its method is reachable. The result lists each of
these contexts once, one for each pointer of the variable. -/
structure Scoped (p : Program) (s : State) (r : Result) : Prop where
  pointers : ∀ {i c v}, s.arena.pointer i = .ok (.var c v) →
    ∃ m, p.Declares m v ∧ (c, m) ∈ s.calls.reachable.toList
  contexts : ∀ {c v}, c ∈ r.contextsOf v ↔ ∃ i, s.arena.pointer i = .ok (.var c v)
  reachable : ∀ {c v}, c ∈ r.contextsOf v →
    ∃ m, p.Declares m v ∧ (c, m) ∈ s.calls.reachable.toList
  nodup : ∀ v, (r.contextsOf v).Nodup
  perm : ∀ v, (r.contextsOf v).Perm ((r.varPointers.getD v []).map Prod.fst)

variable {p : Program} {how : Sensitivity} {s : State}

theorem State.Anchored.scoped (hs : s.Anchored p how []) (metrics : Bool) :
    Scoped p s (.ofState s metrics) := by
  have hvars : ∀ {i c v}, s.arena.pointer i = .ok (.var c v) →
      ∃ m, p.Declares m v ∧ (c, m) ∈ s.calls.reachable.toList := by
    intro i c v hx
    obtain ⟨m, hv, hm⟩ := hs.vars hx
    exact ⟨m, hv, hm.reachable⟩
  refine ⟨hvars, Result.mem_contextsOf, fun hc => ?_, fun v => Result.nodup_contextsOf _,
    fun v => Result.contextsOf_perm⟩
  obtain ⟨i, hx⟩ := Result.mem_contextsOf.1 hc
  exact hvars hx

/-- **Connection.** Whenever a step has ended, the call graph with contexts is connected, and so is
its image without contexts. Both start at the entry method alone, the former in the empty context.
Variables have been met in contexts of reachable methods only. -/
theorem callGraph_connected (hp : p.Accepted) (hs : State.Reaches p how State.anyExtra s)
    (metrics : Bool) :
    s.calls.Connected enclosing p Prod.snd ∧ s.calls.Listed ∧
      (Result.ofState s metrics).plainCalls.Connected StmtId.method p id ∧
      (Result.ofState s metrics).plainCalls.Listed ∧
      (∃ c, s.arena.context c = .ok how.start ∧ s.calls.entries.toList = [(c, p.entry)] ∧
        (Result.ofState s metrics).plainCalls.entries.toList = [p.entry]) ∧
      Scoped p s (.ofState s metrics) := by
  obtain ⟨extra, hextra⟩ := State.exists_extra hp hs
  have hanchored := State.anchored_of_reaches hp hs
  have hconnected := hanchored.connected (State.grounded_of_reaches hp hextra)
  have hplain : (Result.ofState s metrics).plainCalls.Connected StmtId.method p id :=
    hconnected.project (fun _ => rfl) fun _ => rfl
  obtain ⟨c, hc, hentries⟩ := hanchored.entry
  refine ⟨hconnected, hconnected.listed, hplain, hplain.listed, ⟨c, hc, hentries, ?_⟩,
    hanchored.scoped metrics⟩
  show (Roster.ofList (s.calls.entries.toList.map Prod.snd)).toList = _
  rw [hentries]
  rfl

/-- While objects are nested ever deeper in `nesting`, one method after the other becomes reachable,
but without contexts there are three. -/
theorem nesting_callGraph_connected :
    ∃ s, State.Reaches (.index Program.nesting) (.object 2) State.anyExtra s ∧
      s.calls.reachable.size = 5 ∧ (Result.ofState s false).plainCalls.reachable.size = 3 ∧
      s.calls.Connected enclosing (.index Program.nesting) Prod.snd ∧
      (Result.ofState s false).plainCalls.Connected StmtId.method (.index Program.nesting) id ∧
      Scoped (.index Program.nesting) s (.ofState s false) := by
  obtain ⟨s, hs, htest⟩ := State.exists_reaches (.index Program.nesting) (.object 2) .fifo 100 6
    (fun s => decide (s.calls.reachable.size = 5 ∧
      (Result.ofState s false).plainCalls.reachable.size = 3)) (by decide +kernel)
  obtain ⟨hsize, hplain⟩ := of_decide_eq_true htest
  obtain ⟨hconnected, -, hplainConnected, -, -, hscoped⟩ :=
    callGraph_connected Program.nesting_accepted hs false
  exact ⟨s, hs, hsize, hplain, hconnected, hplainConnected, hscoped⟩

end PointsTo

end ObjectFlow
