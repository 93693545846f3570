import ObjectFlow.Proofs.Closure
import ObjectFlow.Proofs.Derivation

/-!
# Nothing is found that does not follow from the rules

A `Finding` is an entry of one of the tables of a state, told by numbers. The invariant of a run is
`Grounded`: every finding, pending objects included, resolves to a fact that can be derived. A task
is `Justified` when the rule that it stands for can be applied to derivable facts.

The step lemma `Grounded.perform` gives more than the invariant: a justified task can be performed,
so an analysis of an accepted program never fails but for the limits it is given.
-/

namespace ObjectFlow.PointsTo

/-- An entry of the tables of a state. -/
inductive Finding
  | context (c : ContextId)
  | object (o : ObjId)
  | pointer (i : PointerId)
  | reachable (m : ContextMethod)
  | call (e : CallEdge ContextSite ContextMethod)
  | flow (source target : PointerId)
  | holds (i : PointerId) (o : ObjId)

/-- A finding states a fact once its numbers are resolved. -/
inductive Resolves (a : Arena) : Finding → Fact → Prop
  | context {c h} : a.Recalls c h → Resolves a (.context c) (.context h)
  | object {o x} : a.Spells o x → Resolves a (.object o) (.object x)
  | pointer {i q} : a.Points i q → Resolves a (.pointer i) (.pointer q)
  | reachable {c h} (m : MethodId) : a.Recalls c h → Resolves a (.reachable (c, m)) (.reachable h m)
  | call {c h d k} (kind : CallKind) (site : StmtId) (m : MethodId) : a.Recalls c h →
      a.Recalls d k → Resolves a (.call ⟨kind, (c, site), (d, m)⟩) (.call ⟨kind, (h, site), (k, m)⟩)
  | flow {i j q r} : a.Points i q → a.Points j r → Resolves a (.flow i j) (.flow q r)
  | holds {i o q x} : a.Points i q → a.Spells o x → Resolves a (.holds i o) (.holds q x)

theorem Resolves.mono {a b : Arena} (hab : a.Extends b) {r : Finding} {f : Fact}
    (h : Resolves a r f) : Resolves b r f := by
  cases h with
  | context hc => exact .context (hc.mono hab)
  | object ho => exact .object (ho.mono hab)
  | pointer hi => exact .pointer (hi.mono hab)
  | reachable m hc => exact .reachable m (hc.mono hab)
  | call kind site m hc hd => exact .call kind site m (hc.mono hab) (hd.mono hab)
  | flow hi hj => exact .flow (hi.mono hab) (hj.mono hab)
  | holds hi ho => exact .holds (hi.mono hab) (ho.mono hab)

theorem Resolves.unique {a : Arena} {r : Finding} {f g : Fact} (h : Resolves a r f)
    (h' : Resolves a r g) : f = g := by
  cases h with
  | context hc =>
    cases h' with
    | context hc' => rw [hc.unique hc']
  | object ho =>
    cases h' with
    | object ho' => rw [ho.unique ho']
  | pointer hi =>
    cases h' with
    | pointer hi' => rw [hi.unique hi']
  | reachable m hc =>
    cases h' with
    | reachable _ hc' => rw [hc.unique hc']
  | call kind site m hc hd =>
    cases h' with
    | call _ _ _ hc' hd' => rw [hc.unique hc', hd.unique hd']
  | flow hi hj =>
    cases h' with
    | flow hi' hj' => rw [hi.unique hi', hj.unique hj']
  | holds hi ho =>
    cases h' with
    | holds hi' ho' => rw [hi.unique hi', ho.unique ho']

theorem Resolves.inj {a : Arena} {r r' : Finding} {f : Fact} (h : Resolves a r f)
    (h' : Resolves a r' f) : r = r' := by
  cases h with
  | context hc =>
    cases h' with
    | context hc' => rw [hc.inj hc']
  | object ho =>
    cases h' with
    | object ho' => rw [ho.inj ho']
  | pointer hi =>
    cases h' with
    | pointer hi' => rw [hi.inj hi']
  | reachable m hc =>
    cases h' with
    | reachable _ hc' => rw [hc.inj hc']
  | call kind site m hc hd =>
    cases h' with
    | call _ _ _ hc' hd' => rw [hc.inj hc', hd.inj hd']
  | flow hi hj =>
    cases h' with
    | flow hi' hj' => rw [hi.inj hi', hj.inj hj']
  | holds hi ho =>
    cases h' with
    | holds hi' ho' => rw [hi.inj hi', ho.inj ho']

namespace State

/-- What a state has found. Objects that wait for a pointer count as found there. -/
def Finds (s : State) : Finding → Prop
  | .context c => ∃ x, s.arena.context c = .ok x
  | .object o => ∃ x, s.arena.object o = .ok x
  | .pointer i => ∃ x, s.arena.pointer i = .ok x
  | .reachable m => m ∈ s.calls.reachable.toList
  | .call e => e ∈ s.calls.edges.toList
  | .flow i j => s.HasFlow i j
  | .holds i o => s.Knows i o

variable (p : Program) (how : Sensitivity) (extra : List (Place × Place))

/-- A finding resolves to a derivable fact. -/
def Founded (a : Arena) (r : Finding) : Prop := ∃ f, Resolves a r f ∧ Derives p how extra f

/-- All that has been found can be derived. -/
def Grounded (s : State) : Prop := ∀ r, s.Finds r → Founded p how extra s.arena r

/-- A task stands for a rule that can be applied. -/
def Justified (s : State) : Task → Prop
  | .enter c m => Founded p how extra s.arena (.reachable (c, m))
  | .execute c site => Founded p how extra s.arena (.reachable (c, site.method)) ∧
      ∃ st, p.stmt site = .ok st
  | .arrive o c site => ∃ st v h x, p.stmt site = .ok st ∧ st.through = some v ∧
      s.arena.Recalls c h ∧ s.arena.Spells o x ∧ Derives p how extra (.holds (.var h v) x)
  | .bind e => Founded p how extra s.arena (.call e)

variable {p how extra} {s t : State}

theorem Founded.mono {a b : Arena} (hab : a.Extends b) {r : Finding} :
    Founded p how extra a r → Founded p how extra b r := by
  rintro ⟨f, hr, hd⟩
  exact ⟨f, hr.mono hab, hd⟩

theorem Justified.mono (hab : s.arena.Extends t.arena) {task : Task}
    (h : s.Justified p how extra task) : t.Justified p how extra task := by
  cases task with
  | enter c m => exact Founded.mono hab h
  | execute c site => exact ⟨h.1.mono hab, h.2⟩
  | arrive o c site =>
    obtain ⟨st, v, k, x, hst, hv, hc, ho, hd⟩ := h
    exact ⟨st, v, k, x, hst, hv, hc.mono hab, ho.mono hab, hd⟩
  | bind e => exact Founded.mono hab h

/-- It is enough to look at what is new. -/
theorem Grounded.extend (hs : s.Grounded p how extra) (hext : s.arena.Extends t.arena)
    (hnew : ∀ r, t.Finds r → s.Finds r ∨ Founded p how extra t.arena r) :
    t.Grounded p how extra := by
  intro r hr
  rcases hnew r hr with hr | hr
  · exact (hs r hr).mono hext
  · exact hr

/-! ## What is new -/

theorem finds_contextId {c : Context} {r : Finding} (h : (s.contextId c).2.Finds r) :
    s.Finds r ∨ r = .context (s.contextId c).1 := by
  cases r with
  | context i =>
    obtain ⟨x, hx⟩ := h
    rcases Roster.get?_insert_cases (Arena.context_eq_ok.1 hx) with hx | hi
    · exact Or.inl ⟨x, Arena.context_eq_ok.2 hx⟩
    · exact Or.inr (congrArg (fun n => Finding.context ⟨n⟩) hi)
  | _ => exact Or.inl h

theorem finds_objectId {x : AbstractObject} {r : Finding} (h : (s.objectId x).2.Finds r) :
    s.Finds r ∨ r = .object (s.objectId x).1 := by
  cases r with
  | object i =>
    obtain ⟨y, hy⟩ := h
    rcases Roster.get?_insert_cases (Arena.object_eq_ok.1 hy) with hy | hi
    · exact Or.inl ⟨y, Arena.object_eq_ok.2 hy⟩
    · exact Or.inr (congrArg (fun n => Finding.object ⟨n⟩) hi)
  | _ => exact Or.inl h

theorem finds_pointerId {x : Pointer} {r : Finding} (h : (s.pointerId x).2.Finds r) :
    s.Finds r ∨ r = .pointer (s.pointerId x).1 := by
  cases r with
  | context c =>
    obtain ⟨y, hy⟩ := h
    refine Or.inl ⟨y, ?_⟩
    rw [Arena.context_eq_ok] at hy ⊢
    rw [← Arena.addPointer_contexts s.arena x]
    exact hy
  | object o =>
    obtain ⟨y, hy⟩ := h
    refine Or.inl ⟨y, ?_⟩
    rw [Arena.object_eq_ok] at hy ⊢
    rw [← Arena.addPointer_objects s.arena x]
    exact hy
  | pointer i =>
    obtain ⟨y, hy⟩ := h
    have hy' := Arena.pointer_eq_ok.1 hy
    change (s.arena.addPointer x).pointers.get? i.index = some y at hy'
    rw [Arena.addPointer_pointers] at hy'
    rcases Roster.get?_insert_cases hy' with hy' | hi
    · exact Or.inl ⟨y, Arena.pointer_eq_ok.2 hy'⟩
    · refine Or.inr (congrArg Finding.pointer ?_)
      show i = (s.arena.pointerId? x).getD ⟨s.arena.pointers.size⟩
      obtain ⟨n⟩ := i
      unfold Arena.pointerId?
      cases hx : s.arena.pointers.indexOf? x <;> simp_all
  | reachable m => exact Or.inl h
  | call e => exact Or.inl h
  | flow i j => exact Or.inl h
  | holds i o =>
    refine Or.inl (h.imp (fun h => ?_) id)
    rw [← s.arena.objectsOf_pointerId x i]
    exact h

theorem finds_push {i : PointerId} {objects : ObjectSet} {r : Finding}
    (h : State.Finds { s with pending := s.pending.push i objects } r) :
    s.Finds r ∨ ∃ o ∈ objects, r = .holds i o := by
  cases r with
  | holds j o =>
    rcases h with h | h
    · exact Or.inl (Or.inl h)
    · rcases Pending.mem_waiting_push.1 h with hold | ⟨rfl, hnew⟩
      · exact Or.inl (Or.inr hold)
      · exact Or.inr ⟨o, hnew, rfl⟩
  | _ => exact Or.inl h

theorem finds_addFlow {i j : PointerId} {r : Finding} (h : (s.addFlow i j).Finds r) :
    s.Finds r ∨ r = .flow i j ∨ ∃ o ∈ s.arena.objectsOf i, r = .holds j o := by
  by_cases hc : s.flow.contains i j = true
  · rw [addFlow_eq, if_pos hc] at h
    exact Or.inl h
  · cases r with
    | flow k l =>
      rcases hasFlow_addFlow.1 h with h | ⟨rfl, rfl⟩
      · exact Or.inl h
      · exact Or.inr (Or.inl rfl)
    | holds k o =>
      rw [addFlow_eq, if_neg hc] at h
      have hpush : State.Finds { s with pending := s.pending.push j (s.arena.objectsOf i) }
        (.holds k o) := h
      exact (finds_push hpush).imp id Or.inr
    | _ =>
      rw [addFlow_eq, if_neg hc] at h
      exact Or.inl h

theorem finds_addCall {e : CallEdge ContextSite ContextMethod} {r : Finding}
    (h : State.Finds { s with calls := (s.calls.addEdge e).2 } r) : s.Finds r ∨ r = .call e := by
  cases r with
  | call e' => exact (Roster.mem_insert.1 h).imp id (congrArg Finding.call)
  | _ => exact Or.inl h

theorem finds_addReachable {m : ContextMethod} {r : Finding}
    (h : State.Finds { s with calls := (s.calls.addReachable m).2 } r) :
    s.Finds r ∨ r = .reachable m := by
  cases r with
  | reachable m' => exact (Roster.mem_insert.1 h).imp id (congrArg Finding.reachable)
  | _ => exact Or.inl h

/-! ## Operations on a grounded state -/

section Operations

variable (hs : s.Grounded p how extra)
include hs

theorem Grounded.contextId {c : Context} {h : History} (hc : s.arena.Tells c h)
    (hd : Derives p how extra (.context h)) : (s.contextId c).2.Grounded p how extra := by
  have hext := s.arena.contextId_extends c
  refine hs.extend hext fun r hr => (finds_contextId hr).imp id fun hr => ?_
  subst hr
  exact ⟨_, .context ⟨c, s.arena.context_contextId c, hc.mono hext⟩, hd⟩

theorem Grounded.objectId {x : AbstractObject} {o : ObjectOrigin}
    (ho : (s.objectId x).2.arena.Spells (s.objectId x).1 o) (hd : Derives p how extra (.object o)) :
    (s.objectId x).2.Grounded p how extra := by
  refine hs.extend (s.arena.objectId_extends x) fun r hr => (finds_objectId hr).imp id fun hr => ?_
  subst hr
  exact ⟨_, .object ho, hd⟩

theorem Grounded.pointerId {x : Pointer} {q : Place} (hx : s.arena.Names x q)
    (hd : Derives p how extra (.pointer q)) : (s.pointerId x).2.Grounded p how extra := by
  have hext := s.arena.pointerId_extends x
  refine hs.extend hext fun r hr => (finds_pointerId hr).imp id fun hr => ?_
  subst hr
  exact ⟨_, .pointer ⟨x, s.arena.pointer_pointerId x, hx.mono hext⟩, hd⟩

theorem Grounded.send {o : ObjId} {x : ObjectOrigin} {y : Pointer} {q : Place}
    (ho : s.arena.Spells o x) (hy : s.arena.Names y q) (hd : Derives p how extra (.holds q x)) :
    (s.send o y).Grounded p how extra := by
  have hext := s.arena.pointerId_extends y
  refine (hs.pointerId hy hd.pointerOfHolds).extend (.refl _) fun r hr =>
    (finds_push (s := (s.pointerId y).2) hr).imp id ?_
  rintro ⟨o', ho', rfl⟩
  obtain rfl := ObjectSet.mem_single.1 ho'
  exact ⟨_, .holds ⟨y, s.arena.pointer_pointerId y, hy.mono hext⟩ (ho.mono hext), hd⟩

theorem Grounded.sendThis {o : ObjId} {x : ObjectOrigin} {c : ContextId} {h : History}
    (ho : s.arena.Spells o x) (hc : s.arena.Recalls c h) (this : Option VarId)
    (hd : ∀ v, this = some v → Derives p how extra (.holds (.var h v) x)) :
    (match this with | some this => s.send o (.var c this) | none => s).Grounded p how extra := by
  cases this with
  | none => exact hs
  | some v => exact hs.send ho (.var v hc) (hd v rfl)

/-- What a pointer has is an object there by a derivable fact. -/
theorem Grounded.holds {i : PointerId} {q : Place} (hi : s.arena.Points i q) {o : ObjId}
    (ho : s.Knows i o) : ∃ x, s.arena.Spells o x ∧ Derives p how extra (.holds q x) := by
  obtain ⟨f, hr, hd⟩ := hs (.holds i o) ho
  cases hr with
  | holds hi' ho =>
    obtain rfl := hi.unique hi'
    exact ⟨_, ho, hd⟩

theorem Grounded.addFlow {i j : PointerId} {q r : Place} (hi : s.arena.Points i q)
    (hj : s.arena.Points j r) (hd : Derives p how extra (.flow q r)) :
    (s.addFlow i j).Grounded p how extra := by
  have ⟨y, hy, _⟩ := hj
  have hext := (addFlow_prepares (i := i) hy).arena
  refine hs.extend hext fun f hf => (finds_addFlow hf).imp id ?_
  rintro (rfl | ⟨o, ho, rfl⟩)
  · exact ⟨_, .flow (hi.mono hext) (hj.mono hext), hd⟩
  · obtain ⟨x, hx, hdx⟩ := hs.holds hi (Or.inl ho)
    exact ⟨_, .holds (hj.mono hext) (hx.mono hext), hd.propagate hdx⟩

theorem Grounded.connect {x y : Pointer} {q r : Place} (hx : s.arena.Names x q)
    (hy : s.arena.Names y r) (hd : Derives p how extra (.flow q r)) :
    (s.connect x y).Grounded p how extra := by
  have h₁ := s.arena.pointerId_extends x
  have h₂ := (s.pointerId x).2.arena.pointerId_extends y
  refine ((hs.pointerId hx hd.source).pointerId (hy.mono h₁) hd.target).addFlow ?_ ?_ hd
  · exact ⟨x, h₂.pointer (s.arena.pointer_pointerId x), hx.mono (h₁.trans h₂)⟩
  · exact ⟨y, (s.pointerId x).2.arena.pointer_pointerId y, hy.mono (h₁.trans h₂)⟩

end Operations

/-- Pointers may be connected one pair after the other. -/
theorem Grounded.foldl_connect {α : Type} (hs : s.Grounded p how extra) (f g : α → Pointer)
    (as : List α)
    (h : ∀ a ∈ as, ∃ q r, s.arena.Names (f a) q ∧ s.arena.Names (g a) r ∧
      Derives p how extra (.flow q r)) :
    (as.foldl (fun s a => s.connect (f a) (g a)) s).Grounded p how extra := by
  induction as generalizing s with
  | nil => exact hs
  | cons a as ih =>
    obtain ⟨q, r, hf, hg, hd⟩ := h a List.mem_cons_self
    have hext := (s.connect_prepares (f a) (g a)).arena
    rw [List.foldl_cons]
    refine ih (hs.connect hf hg hd) fun b hb => ?_
    obtain ⟨q', r', hfb, hgb, hdb⟩ := h b (List.mem_cons_of_mem a hb)
    exact ⟨q', r', hfb.mono hext, hgb.mono hext, hdb⟩

/-! ## Performing a task -/

variable (p how extra) in
/-- A rule has been applied without a fault: the new state is grounded, and what must follow is
justified. -/
def Succeeds (r : Except Fault (List Task × State)) : Prop :=
  ∃ next t, r = .ok (next, t) ∧ t.Grounded p how extra ∧ ∀ task ∈ next, t.Justified p how extra task

theorem Grounded.succeeds (ht : t.Grounded p how extra) : Succeeds p how extra (.ok ([], t)) :=
  ⟨[], t, rfl, ht, by simp⟩

theorem Grounded.addCall (hs : s.Grounded p how extra) {e : CallEdge ContextSite ContextMethod}
    (he : Founded p how extra s.arena (.call e)) : Succeeds p how extra (.ok (s.addCall e)) := by
  by_cases hc : s.calls.hasEdge e = true
  · rw [State.addCall_eq, if_pos hc]
    exact hs.succeeds
  · rw [State.addCall_eq, if_neg hc]
    refine ⟨_, _, rfl, hs.extend (.refl _) fun r hr => (finds_addCall hr).imp id ?_, ?_⟩
    · rintro rfl
      exact he
    · obtain ⟨f, hr, hd⟩ := he
      cases hr with
      | call kind site m hc' hd' =>
        intro task htask
        simp only [List.mem_cons, List.not_mem_nil, or_false] at htask
        rcases htask with rfl | rfl
        · exact ⟨_, .reachable m hd', hd.callee⟩
        · exact ⟨_, .call kind site m hc' hd', hd⟩

section Perform

variable (hp : p.Accepted) (hs : s.Grounded p how extra) {c : ContextId} {h : History}
  (hc : s.arena.Recalls c h) {site : StmtId}
include hp hs hc

theorem Grounded.allocate {lhs : VarId} {ty : Ty}
    (hr : Derives p how extra (.reachable h site.method))
    (hst : p.stmt site = .ok (.alloc lhs ty)) :
    ∃ o t x, s.allocate p how c site ty = .ok (o, t) ∧ t.Grounded p how extra ∧
      s.arena.Extends t.arena ∧ t.arena.Spells o x ∧
      Derives p how extra (.holds (.var h lhs) x) := by
  obtain ⟨context, hcontext, htells⟩ := hc
  obtain ⟨method, hm⟩ := hr.sensible hp
  have hd := Derives.alloc hr hst hm
  have hg := hs.contextId (htells.allocated how) hd.objectOfHolds.contextOfObject
  have h₁ := s.arena.contextId_extends (how.heap context)
  have h₂ := (s.contextId (how.heap context)).2.arena.objectId_extends
    ⟨site, ty, method.decl.owner, (s.contextId (how.heap context)).1⟩
  have hspells : ((s.contextId (how.heap context)).2.objectId
      ⟨site, ty, method.decl.owner, (s.contextId (how.heap context)).1⟩).2.arena.Spells _
      ⟨site, ty, method.decl.owner, how.heapHistory h⟩ :=
    Arena.spells_iff.2 ⟨_, (s.contextId (how.heap context)).2.arena.object_objectId _,
      ⟨_, h₂.context (s.arena.context_contextId _), (htells.allocated how).mono (h₁.trans h₂)⟩,
      rfl, rfl, rfl⟩
  exact ⟨_, _, _, bind_eq_ok.2 ⟨context, hcontext, bind_eq_ok.2 ⟨method, hm, rfl⟩⟩,
    hg.objectId hspells hd.objectOfHolds, h₁.trans h₂, hspells, hd⟩

theorem Grounded.callStatically {call : Invoke}
    (hr : Derives p how extra (.reachable h site.method)) (hst : p.stmt site = .ok (.invoke call)) :
    Succeeds p how extra (s.execute p how c site (.invoke call)) := by
  by_cases hk : call.kind = .static
  · obtain ⟨context, hcontext, htells⟩ := hc
    obtain ⟨m, hm⟩ := Program.callee_of_static hp hst hk
    have hd := Derives.staticCall hr hst hk hm
    have hext := s.arena.contextId_extends (how.afterStaticCall context site)
    have hcallee := htells.afterStaticCall how site
    have hg := hs.contextId hcallee hd.callee.contextOfMethod
    have hrun : s.execute p how c site (.invoke call) =
        .ok ((s.contextId (how.afterStaticCall context site)).2.addCall
          ⟨.static, (c, site), ((s.contextId (how.afterStaticCall context site)).1, m)⟩) := by
      simp only [execute, Invoke.isStatic, hk, decide_true, if_true]
      exact bind_eq_ok.2 ⟨some m, hm, bind_eq_ok.2 ⟨context, hcontext, rfl⟩⟩
    rw [hrun]
    exact hg.addCall ⟨_, .call _ _ _ ⟨context, hext.context hcontext, htells.mono hext⟩
      ⟨_, s.arena.context_contextId _, hcallee.mono hext⟩, hd⟩
  · have hrun : s.execute p how c site (.invoke call) = .ok ([], s) := by
      simp [execute, Invoke.isStatic, hk, pure, Except.pure]
    rw [hrun]
    exact hs.succeeds

theorem Grounded.execute {st : Stmt} (hr : Derives p how extra (.reachable h site.method))
    (hst : p.stmt site = .ok st) : Succeeds p how extra (s.execute p how c site st) := by
  cases st with
  | alloc lhs ty =>
    obtain ⟨o, t, x, hrun, hg, hext, ho, hd⟩ := hs.allocate hp hc hr hst
    exact ⟨_, _, bind_eq_ok.2 ⟨(o, t), hrun, rfl⟩, hg.send ho (.var lhs (hc.mono hext)) hd,
      by simp⟩
  | copy lhs rhs => exact (hs.connect (.var rhs hc) (.var lhs hc) (.copy hr hst)).succeeds
  | cast lhs rhs ty => exact (hs.connect (.var rhs hc) (.var lhs hc) (.cast hr hst)).succeeds
  | loadField lhs access =>
    obtain ⟨base, f⟩ := access
    cases base with
    | none => exact (hs.connect (.staticField f) (.var lhs hc) (.staticLoad hr hst)).succeeds
    | some x => exact hs.succeeds
  | storeField access rhs =>
    obtain ⟨base, f⟩ := access
    cases base with
    | none => exact (hs.connect (.var rhs hc) (.staticField f) (.staticStore hr hst)).succeeds
    | some x => exact hs.succeeds
  | invoke call => exact hs.callStatically hp hc hr hst
  | _ => exact hs.succeeds

variable {o : ObjId} {x : ObjectOrigin} (ho : s.arena.Spells o x) {v : VarId}
  (hd : Derives p how extra (.holds (.var h v) x))
include ho hd

theorem Grounded.dispatch {call : Invoke} (hst : p.stmt site = .ok (.invoke call))
    (hv : call.receiver = some v) : Succeeds p how extra (s.dispatch p how o c site call) := by
  have hr := hd.reachable_of_through hp hst hv
  obtain ⟨obj, hobj, ⟨heap, hheap, hheap'⟩, hsite, hty, hcontainer⟩ := Arena.spells_iff.1 ho
  obtain ⟨context, hcontext, htells⟩ := hc
  have hclass : obj.class? = x.ty.class? := congrArg Ty.class? hty
  obtain ⟨found, hfound⟩ := Program.callee_total hp hst (hd.sensible hp).2
  have hfound' : p.hierarchy.callee obj.class? call = .ok found := by rw [hclass, hfound]
  cases found with
  | none =>
    exact ⟨_, _, bind_eq_ok.2 ⟨obj, hobj, bind_eq_ok.2 ⟨none, hfound', rfl⟩⟩, hs, by simp⟩
  | some m =>
    obtain ⟨method, hm⟩ := Program.method_of_callee hp hfound
    have hcall := Derives.instanceCall hr hst hv hd hfound
    have hcallee := htells.afterCall how site ho hheap'
    rw [← hcontainer] at hcallee
    generalize hctx : how.afterCall context site ⟨o, obj.container, heap⟩ = callee at hcallee
    have hext := s.arena.contextId_extends callee
    have hg := hs.contextId hcallee hcall.callee.contextOfMethod
    have hrecalls : (s.contextId callee).2.arena.Recalls (s.contextId callee).1
        (how.historyAfterCall h site x) := ⟨_, s.arena.context_contextId _, hcallee.mono hext⟩
    have hcaller : (s.contextId callee).2.arena.Recalls c h :=
      ⟨context, hext.context hcontext, htells.mono hext⟩
    have hsent := hg.sendThis (ho.mono hext) hrecalls method.decl.this fun this hthis =>
      .this hr hst hv hd hfound hm hthis
    have hextu := ((s.contextId callee).2.sendThis_prepares o (s.contextId callee).1
      method.decl.this).1.arena
    have hrun : s.dispatch p how o c site call = .ok ((match method.decl.this with
        | some this => (s.contextId callee).2.send o (.var (s.contextId callee).1 this)
        | none => (s.contextId callee).2).addCall
          ⟨call.kind, (c, site), ((s.contextId callee).1, m)⟩) := by
      subst hctx
      exact bind_eq_ok.2 ⟨obj, hobj, bind_eq_ok.2 ⟨some m, hfound', bind_eq_ok.2 ⟨heap, hheap,
        bind_eq_ok.2 ⟨context, hcontext, bind_eq_ok.2 ⟨method, hm, rfl⟩⟩⟩⟩⟩
    rw [hrun]
    exact hsent.addCall ⟨_, .call _ _ _ (hcaller.mono hextu) (hrecalls.mono hextu), hcall⟩

theorem Grounded.arrive {st : Stmt} (hst : p.stmt site = .ok st) (hv : st.through = some v) :
    Succeeds p how extra (s.arrive p how o c site st) := by
  have hr := hd.reachable_of_through hp hst hv
  cases st with
  | storeField access rhs =>
    obtain ⟨base, f⟩ := access
    obtain rfl : base = some v := hv
    exact (hs.connect (.var rhs hc) (.instanceField f ho) (.store hr hst hd)).succeeds
  | loadField lhs access =>
    obtain ⟨base, f⟩ := access
    obtain rfl : base = some v := hv
    exact (hs.connect (.instanceField f ho) (.var lhs hc) (.load hr hst hd)).succeeds
  | storeArray base index rhs =>
    obtain rfl : base = v := Option.some.inj hv
    exact (hs.connect (.var rhs hc) (.elements ho) (.arrayStore hr hst hd)).succeeds
  | loadArray lhs base index =>
    obtain rfl : base = v := Option.some.inj hv
    exact (hs.connect (.elements ho) (.var lhs hc) (.arrayLoad hr hst hd)).succeeds
  | invoke call => exact hs.dispatch hp hc ho hd hst hv
  | _ => exact hs.succeeds

end Perform

theorem Grounded.bind (hp : p.Accepted) (hs : s.Grounded p how extra)
    {e : CallEdge ContextSite ContextMethod} (he : Founded p how extra s.arena (.call e)) :
    ∃ t, s.bind p e = .ok t ∧ t.Grounded p how extra := by
  obtain ⟨f, hr, hd⟩ := he
  cases hr with
  | @call c h c' h' kind site m hc hc' =>
    obtain ⟨⟨call, hst⟩, ⟨method, hm⟩, -⟩ := hd.sensible hp
    have hinvoke := Program.invoke?_eq_ok.2 ⟨_, hst, rfl⟩
    have h₁ := (State.foldl_connect (fun a => .var c a.1) (fun a => .var c' a.2)
      (call.args.zip method.decl.params) s).1.arena
    have hargs := hs.foldl_connect (fun a => .var c a.1) (fun a => .var c' a.2)
      (call.args.zip method.decl.params) fun a ha =>
        ⟨_, _, .var a.1 hc, .var a.2 hc', hd.argument hst hm ha⟩
    cases hresult : call.result with
    | none =>
      refine ⟨_, bind_eq_ok.2 ⟨_, hinvoke, bind_eq_ok.2 ⟨method, hm, ?_⟩⟩, hargs⟩
      simp only [hresult]
      rfl
    | some lhs =>
      have hlhs := hargs.pointerId (.var lhs (hc.mono h₁)) (hd.resultPointer hst hresult)
      have h₂ := h₁.trans (Arena.pointerId_extends _ (.var c lhs))
      refine ⟨_, bind_eq_ok.2 ⟨_, hinvoke, bind_eq_ok.2 ⟨method, hm, ?_⟩⟩,
        hlhs.foldl_connect (fun v => .var c' v) (fun _ => .var c lhs) method.returnVars
          fun v hv => ⟨_, _, .var v (hc'.mono h₂), .var lhs (hc.mono h₂),
            hd.result hst hm hresult hv⟩⟩
      simp only [hresult]
      rfl

/-- **A justified task can be performed**, and what it leaves is grounded and justified again. -/
theorem Grounded.perform (hp : p.Accepted) (hs : s.Grounded p how extra) {task : Task}
    (hj : s.Justified p how extra task) : Succeeds p how extra (s.perform p how task) := by
  cases task with
  | enter c m =>
    by_cases hr : s.calls.isReachable (c, m) = true
    · simp only [State.perform_enter, hr, if_true]
      exact hs.succeeds
    · obtain ⟨f, hres, hd⟩ := hj
      cases hres with
      | @reachable _ h _ hc =>
        obtain ⟨method, hm⟩ := hd.sensible hp
        simp only [State.perform_enter, hr, if_false, Bool.false_eq_true]
        refine ⟨_, _, bind_eq_ok.2 ⟨method, hm, rfl⟩,
          hs.extend (.refl _) fun r hr => (finds_addReachable hr).imp id ?_, fun task htask => ?_⟩
        · rintro rfl
          exact ⟨_, .reachable m hc, hd⟩
        · obtain ⟨⟨site, st⟩, hmem, rfl⟩ := List.mem_map.1 htask
          obtain ⟨rfl, hst⟩ := (Program.mem_stmts hp hm).1 hmem
          exact ⟨⟨_, .reachable _ hc, hd⟩, st, hst⟩
  | execute c site =>
    obtain ⟨⟨f, hres, hd⟩, st, hst⟩ := hj
    cases hres with
    | reachable _ hc =>
      obtain ⟨next, t, hrun, hrest⟩ := hs.execute hp hc hd hst
      exact ⟨next, t, bind_eq_ok.2 ⟨st, hst, hrun⟩, hrest⟩
  | arrive o c site =>
    obtain ⟨st, v, h, x, hst, hv, hc, ho, hd⟩ := hj
    obtain ⟨next, t, hrun, hrest⟩ := hs.arrive hp hc ho hd hst hv
    exact ⟨next, t, bind_eq_ok.2 ⟨st, hst, hrun⟩, hrest⟩
  | bind e =>
    obtain ⟨t, hrun, hg⟩ := hs.bind hp hj
    exact ⟨[], t, bind_eq_ok.2 ⟨t, hrun, rfl⟩, hg, by simp⟩

/-! ## Runs -/

theorem Grounded.drain (hp : p.Accepted) :
    ∀ {limit : Nat} {tasks : List Task} {s t : State}, s.Grounded p how extra →
      (∀ task ∈ tasks, s.Justified p how extra task) →
      State.drain p how limit tasks s = .ok t → t.Grounded p how extra
  | 0, [], _, _, hs, _, h => by
    cases h
    exact hs
  | _ + 1, [], _, _, hs, _, h => by
    cases h
    exact hs
  | 0, _ :: _, _, _, _, _, h => by cases h
  | limit + 1, task :: tasks, s, t, hs, hj, h => by
    obtain ⟨next, u, hrun, hu, hnext⟩ := hs.perform hp (hj task List.mem_cons_self)
    obtain ⟨⟨next', u'⟩, hrun', h⟩ := bind_eq_ok.1 h
    rw [hrun] at hrun'
    cases hrun'
    have hext := (perform_effect hp hrun).1.arena
    refine Grounded.drain hp hu (fun task' htask' => ?_) h
    rcases List.mem_append.1 htask' with htask' | htask'
    · exact hnext task' htask'
    · exact (hj task' (List.mem_cons_of_mem task htask')).mono hext

/-- What arrives was known before, and what is sent on follows by propagation. -/
theorem Grounded.arrival (hb : s.Balanced) (hs : s.Grounded p how extra) {i : PointerId}
    {objects : ObjectSet} {rest : Pending} (ht : s.pending.Takes i objects rest) :
    (s.arrival i objects rest).2.Grounded p how extra := by
  have hext := (arrival_extends hb ht).arena
  refine hs.extend hext fun r hr => ?_
  cases r with
  | holds j o =>
    have harrived : o ∈ objects → s.Knows i o := fun ho => Or.inr (ht.objects_eq ▸ ho)
    rcases hr with hr | hr
    · rcases (mem_objectsOf_arrival hb ht).1 hr with hold | ⟨rfl, hnew⟩
      · exact Or.inl (Or.inl hold)
      · exact Or.inl (harrived hnew)
    · rcases (mem_waiting_arrival ht).1 hr with ⟨-, hold⟩ | ⟨hij, hnew⟩
      · exact Or.inl (Or.inr hold)
      · obtain ⟨f, hres, hd⟩ := hs _ (show s.Finds (.flow i j) from hij)
        cases hres with
        | flow hi hj =>
          obtain ⟨x, hx, hdx⟩ := hs.holds hi (harrived (mem_new.1 hnew).1)
          exact Or.inr ⟨_, .holds (hj.mono hext) (hx.mono hext), hd.propagate hdx⟩
  | _ => exact Or.inl hr

/-- The reactions of known objects can be listed, and each is justified. -/
theorem Grounded.reactions (hp : p.Accepted) (hs : s.Grounded p how extra) {i : PointerId}
    {x : Pointer} (hi : s.arena.pointer i = .ok x) (order : List ObjId)
    (horder : ∀ o ∈ order, s.Knows i o) :
    ∃ tasks, s.reactions p i order = .ok tasks ∧ ∀ task ∈ tasks, s.Justified p how extra task := by
  obtain ⟨f, hres, hd⟩ := hs _ (show s.Finds (.pointer i) from ⟨x, hi⟩)
  cases hres with
  | @pointer _ q hq =>
    have hn := hq.names hi
    have htasks : ∃ tasks, s.reactions p i order = .ok tasks := by
      cases hn with
      | var v hc =>
        obtain ⟨m, hv, -⟩ := hd.sensible hp
        obtain ⟨uses, hu⟩ := Program.exists_varUses hp hv
        exact ⟨_, bind_eq_ok.2 ⟨_, hi, bind_eq_ok.2 ⟨uses, hu, rfl⟩⟩⟩
      | instanceField f ho => exact ⟨_, bind_eq_ok.2 ⟨_, hi, rfl⟩⟩
      | staticField f => exact ⟨_, bind_eq_ok.2 ⟨_, hi, rfl⟩⟩
      | elements ho => exact ⟨_, bind_eq_ok.2 ⟨_, hi, rfl⟩⟩
    obtain ⟨tasks, htasks⟩ := htasks
    refine ⟨tasks, htasks, fun task htask => ?_⟩
    obtain ⟨o, c, v, site, st, hi', ho, hst, hv, rfl⟩ := (mem_reactions hp htasks).1 htask
    rw [hi] at hi'
    cases hi'
    obtain ⟨y, hy, hdy⟩ := hs.holds hq (horder o ho)
    cases hn with
    | var _ hc => exact ⟨st, v, _, y, hst, hv, hc, hy, hdy⟩

theorem Grounded.advances (hp : p.Accepted) (hb : s.Balanced) (hs : s.Grounded p how extra)
    (h : s.Advances p how t) : t.Grounded p how extra := by
  obtain ⟨i, objects, rest, order, ht, horder, tasks, limit, hr, hd⟩ := h
  obtain ⟨x, hx⟩ := exists_pointer_of_takes hb ht
  have ha := hs.arrival hb ht
  obtain ⟨tasks', hr', hj⟩ := ha.reactions hp ((arrival_extends hb ht).arena.pointer hx) order
    (knows_of_mem_order hb ht horder)
  rw [hr] at hr'
  cases hr'
  exact ha.drain hp hj hd

theorem grounded_empty (discipline : Discipline) :
    State.Grounded p how extra { pending := .empty discipline } := by
  intro r hr
  cases r with
  | context c =>
    obtain ⟨x, hx⟩ := hr
    cases Arena.context_eq_ok.1 hx
  | object o =>
    obtain ⟨x, hx⟩ := hr
    cases Arena.object_eq_ok.1 hx
  | pointer i =>
    obtain ⟨x, hx⟩ := hr
    cases Arena.pointer_eq_ok.1 hx
  | reachable m => cases hr
  | call e => cases hr
  | flow i j => cases hr
  | holds i o =>
    rcases hr with hr | hr
    · obtain ⟨x, hx⟩ := Arena.exists_pointer_of_mem hr
      cases Arena.pointer_eq_ok.1 hx
    · exact absurd hr (Pending.not_mem_waiting_of_isEmpty coherent_empty rfl i o)

theorem grounded_opening {discipline : Discipline} :
    (opening p how discipline).Grounded p how extra := by
  have hd : Derives p how extra (.context how.startHistory) := .contextOfMethod .entry
  have hg := (grounded_empty discipline).contextId Arena.tells_start hd
  have hg' := hg.contextId Arena.tells_start hd
  refine hg'.extend (.refl _) fun r hr => Or.inl ?_
  cases r <;> exact hr

/-- An edge joins two pointers that name places of the list. -/
def Between (extra : List (Place × Place)) (a : Arena) (i j : PointerId) : Prop :=
  ∃ q r, a.Points i q ∧ a.Points j r ∧ (q, r) ∈ extra

theorem Grounded.addExtra (hs : s.Grounded p how extra) {i j : PointerId} {x y : Pointer}
    (hi : s.arena.pointer i = .ok x) (hj : s.arena.pointer j = .ok y)
    (he : Between extra s.arena i j) : (s.addFlow i j).Grounded p how extra := by
  obtain ⟨q, r, hq, hr, he⟩ := he
  obtain ⟨f, hf, hdq⟩ := hs _ (show s.Finds (.pointer i) from ⟨x, hi⟩)
  obtain ⟨g, hg, hdr⟩ := hs _ (show s.Finds (.pointer j) from ⟨y, hj⟩)
  cases hf with
  | pointer hq' =>
    cases hg with
    | pointer hr' =>
      obtain rfl := hq.unique hq'
      obtain rfl := hr.unique hr'
      exact hs.addFlow hq hr (.extra he hdq hdr)

theorem grounded_of_reaches (hp : p.Accepted) (h : Reaches p how (Between extra) s) :
    s.Grounded p how extra := by
  induction h with
  | start hs =>
    rw [start_eq] at hs
    refine grounded_opening.drain hp (fun task htask => ?_) hs
    obtain rfl := List.mem_singleton.1 htask
    exact ⟨_, .reachable p.entry ⟨_, context_entryContext, Arena.tells_start⟩, .entry⟩
  | step hr ha ih => exact ih.advances hp (balanced_of_reaches hp hr) ha
  | addFlow _ hi hj he ih => exact ih.addExtra hi hj he

/-- Without edges added by hand, every finding resolves to a fact that can be derived. -/
theorem grounded_of_noExtra (hp : p.Accepted) (h : Reaches p how noExtra s) :
    s.Grounded p how [] :=
  grounded_of_reaches hp (h.mono fun _ _ _ he => he.elim)

theorem Grounded.method_of_reachable (hp : p.Accepted) (hs : s.Grounded p how extra)
    {m : ContextMethod} (h : m ∈ s.calls.reachable.toList) :
    ∃ method, p.method m.2 = .ok method := by
  obtain ⟨f, hres, hd⟩ := hs (.reachable m) h
  cases hres with
  | reachable => exact hd.sensible hp

/-- **No spurious findings.** Whatever a run has found, at any time and in whichever order it goes,
can be derived from the rules. -/
theorem finding_derives (hp : p.Accepted) (h : Reaches p how noExtra s) {r : Finding}
    (hr : s.Finds r) : ∃ f, Resolves s.arena r f ∧ Derives p how [] f :=
  grounded_of_noExtra hp h r hr

/-- After two steps the receiver of `id` is still on its way. -/
theorem boxes_finding_derives :
    ∃ s, Reaches (.index boxes) (.object 1) noExtra s ∧ s.Finds (.holds ⟨5⟩ ⟨0⟩) ∧
      ∃ f, Resolves s.arena (.holds ⟨5⟩ ⟨0⟩) f ∧ Derives (.index boxes) (.object 1) [] f := by
  obtain ⟨s, hs, hrun⟩ := exists_ok_of_any
    ((initial (.object 1) .lifo).start (.index boxes) (.object 1) 100)
    (fun s => (State.run (.index boxes) (.object 1) 100 2 s).toOption.any fun r =>
      (r.2.pending.waiting ⟨5⟩).contains ⟨0⟩) (by decide +kernel)
  obtain ⟨⟨n, t⟩, ht, hwaits⟩ := exists_ok_of_any _ _ hrun
  have hreaches : Reaches (.index boxes) (.object 1) noExtra t := Reaches.run (.start hs) ht
  have hfinds : t.Finds (.holds ⟨5⟩ ⟨0⟩) := Or.inr (Std.ExtTreeSet.contains_iff_mem.1 hwaits)
  exact ⟨t, hreaches, hfinds, finding_derives boxes_accepted hreaches hfinds⟩

end State

end ObjectFlow.PointsTo
