import ObjectFlow.Proofs.Runs

/-!
# What a task leaves behind

For each rule of the analysis there is a statement about the state in which the rule has been
applied: `Executed` for a statement of a reachable method, `Passed` for an object that goes through
a statement, `Bound` for a call. They are kept by everything that extends the state. `Done` collects
them for tasks, and `perform_effect` says all there is to say about performing a task: the task is
done, nothing is lost, no points-to set changes, and a new method or a new call comes with the tasks
that it asks for.
-/

namespace ObjectFlow.PointsTo.State

variable (p : Program) (how : Sensitivity)

/-! ## Applied rules -/

/-- The object that a statement allocates in a context is this one. -/
def Allocates (s : State) (c : ContextId) (site : StmtId) (ty : Ty) (o : ObjId) : Prop :=
  ∃ context method heap, s.arena.context c = .ok context ∧ p.method site.method = .ok method ∧
    s.arena.context heap = .ok (how.heap context) ∧
    s.arena.object o = .ok { site, ty, container := method.decl.owner, context := heap }

/-- A static call in a context leads to the method that it names. -/
def LeadsStatically (s : State) (c : ContextId) (site : StmtId) (call : Invoke) : Prop :=
  ∃ m context callee, p.hierarchy.callee none call = .ok (some m) ∧
    s.arena.context c = .ok context ∧
    s.arena.context callee = .ok (how.afterStaticCall context site) ∧
    ⟨.static, (c, site), (callee, m)⟩ ∈ s.calls.edges.toList

/-- A call on an object leads to the method found from its class, and the object is on its way to
the receiver there. -/
def LeadsFrom (s : State) (arrives : Pointer → ObjId → Prop) (o : ObjId) (c : ContextId)
    (site : StmtId) (call : Invoke) : Prop :=
  ∃ obj, s.arena.object o = .ok obj ∧
    ∀ m, p.hierarchy.callee obj.class? call = .ok (some m) →
      ∃ method context heap callee, p.method m = .ok method ∧ s.arena.context c = .ok context ∧
        s.arena.context obj.context = .ok heap ∧
        s.arena.context callee = .ok (how.afterCall context site ⟨o, obj.container, heap⟩) ∧
        ⟨call.kind, (c, site), (callee, m)⟩ ∈ s.calls.edges.toList ∧
        ∀ this, method.decl.this = some this → arrives (.var callee this) o

/-- A statement of a method that is reachable in a context has been executed. Where it sends an
object, the object satisfies `arrives`. -/
def Executed (s : State) (arrives : Pointer → ObjId → Prop) (c : ContextId) (site : StmtId) :
    Stmt → Prop
  | .alloc lhs ty => ∃ o, s.Allocates p how c site ty o ∧ arrives (.var c lhs) o
  | .copy lhs rhs | .cast lhs rhs _ => s.Flows (.var c rhs) (.var c lhs)
  | .loadField lhs ⟨none, f⟩ => s.Flows (.staticField f) (.var c lhs)
  | .storeField ⟨none, f⟩ rhs => s.Flows (.var c rhs) (.staticField f)
  | .invoke call => call.isStatic = true → s.LeadsStatically p how c site call
  | _ => True

/-- An object that is at the base or receiver of a statement has gone through the statement. -/
def Passed (s : State) (arrives : Pointer → ObjId → Prop) (o : ObjId) (c : ContextId)
    (site : StmtId) : Stmt → Prop
  | .storeField access rhs => s.Flows (.var c rhs) (.instanceField o access.field)
  | .loadField lhs access => s.Flows (.instanceField o access.field) (.var c lhs)
  | .storeArray _ _ rhs => s.Flows (.var c rhs) (.elements o)
  | .loadArray lhs _ _ => s.Flows (.elements o) (.var c lhs)
  | .invoke call => s.LeadsFrom p how arrives o c site call
  | _ => True

/-- Arguments flow to parameters and returned variables to the result. -/
def Bound (s : State) (e : CallEdge ContextSite ContextMethod) : Prop :=
  ∃ call method, p.stmt e.site.2 = .ok (.invoke call) ∧ p.method e.callee.2 = .ok method ∧
    (∀ arg param, (arg, param) ∈ call.args.zip method.decl.params →
      s.Flows (.var e.site.1 arg) (.var e.callee.1 param)) ∧
    ∀ lhs, call.result = some lhs →
      (∃ i, s.arena.pointer i = .ok (.var e.site.1 lhs)) ∧
        ∀ value ∈ method.returnVars, s.Flows (.var e.callee.1 value) (.var e.site.1 lhs)

/-- A task has been performed. -/
def Done (s : State) : Task → Prop
  | .enter c m => (c, m) ∈ s.calls.reachable.toList
  | .execute c site => ∃ st, p.stmt site = .ok st ∧ s.Executed p how s.Receives c site st
  | .arrive o c site => ∃ st, p.stmt site = .ok st ∧ s.Passed p how s.Receives o c site st
  | .bind e => s.Bound p e

variable {p how} {s t u : State}

/-! ## Applied rules stay applied -/

theorem Executed.mono (h : s.Extends t) {arrives arrives' : Pointer → ObjId → Prop}
    (ha : ∀ x o, arrives x o → arrives' x o) {c : ContextId} {site : StmtId} {st : Stmt}
    (hs : s.Executed p how arrives c site st) : t.Executed p how arrives' c site st := by
  unfold Executed at hs ⊢
  split
  · obtain ⟨o, ⟨context, method, heap, hc, hm, hh, ho⟩, hl⟩ := hs
    exact ⟨o, ⟨context, method, heap, h.arena.context hc, hm, h.arena.context hh,
      h.arena.object ho⟩, ha _ _ hl⟩
  · exact h.flows hs
  · exact h.flows hs
  · exact h.flows hs
  · exact h.flows hs
  · intro hk
    obtain ⟨m, context, callee, hm, hc, hcallee, he⟩ := hs hk
    exact ⟨m, context, callee, hm, h.arena.context hc, h.arena.context hcallee, h.edges he⟩
  · trivial

theorem Passed.mono (h : s.Extends t) {arrives arrives' : Pointer → ObjId → Prop}
    (ha : ∀ x o, arrives x o → arrives' x o) {o : ObjId} {c : ContextId} {site : StmtId}
    {st : Stmt} (hs : s.Passed p how arrives o c site st) :
    t.Passed p how arrives' o c site st := by
  unfold Passed at hs ⊢
  split
  · exact h.flows hs
  · exact h.flows hs
  · exact h.flows hs
  · exact h.flows hs
  · obtain ⟨obj, ho, hall⟩ := hs
    refine ⟨obj, h.arena.object ho, fun m hm => ?_⟩
    obtain ⟨method, context, heap, callee, hmethod, hc, hh, hcallee, he, hthis⟩ := hall m hm
    exact ⟨method, context, heap, callee, hmethod, h.arena.context hc, h.arena.context hh,
      h.arena.context hcallee, h.edges he, fun this ht => ha _ _ (hthis this ht)⟩
  · trivial

theorem Bound.mono (h : s.Extends t) {e : CallEdge ContextSite ContextMethod}
    (hs : s.Bound p e) : t.Bound p e := by
  obtain ⟨call, method, hcall, hmethod, hargs, hresult⟩ := hs
  refine ⟨call, method, hcall, hmethod, fun arg param hap => h.flows (hargs arg param hap),
    fun lhs hl => ?_⟩
  obtain ⟨⟨i, hi⟩, hrets⟩ := hresult lhs hl
  exact ⟨⟨i, h.arena.pointer hi⟩, fun value hv => h.flows (hrets value hv)⟩

theorem Bound.argument {e : CallEdge ContextSite ContextMethod} (h : s.Bound p e) {call : Invoke}
    {method : Method} (hst : p.stmt e.site.2 = .ok (.invoke call))
    (hm : p.method e.callee.2 = .ok method) {arg param : VarId}
    (hap : (arg, param) ∈ call.args.zip method.decl.params) :
    s.Flows (.var e.site.1 arg) (.var e.callee.1 param) := by
  obtain ⟨call', method', hst', hm', hargs, -⟩ := h
  rw [hst] at hst'
  rw [hm] at hm'
  cases hst'
  cases hm'
  exact hargs arg param hap

theorem Bound.result {e : CallEdge ContextSite ContextMethod} (h : s.Bound p e) {call : Invoke}
    {method : Method} (hst : p.stmt e.site.2 = .ok (.invoke call))
    (hm : p.method e.callee.2 = .ok method) {lhs value : VarId} (hlhs : call.result = some lhs)
    (hvalue : value ∈ method.returnVars) :
    s.Flows (.var e.callee.1 value) (.var e.site.1 lhs) := by
  obtain ⟨call', method', hst', hm', -, hresult⟩ := h
  rw [hst] at hst'
  rw [hm] at hm'
  cases hst'
  cases hm'
  exact (hresult lhs hlhs).2 value hvalue

theorem Done.mono (h : s.Extends t) {task : Task} (hs : s.Done p how task) :
    t.Done p how task := by
  cases task with
  | enter c m => exact h.reachable hs
  | execute c site =>
    obtain ⟨st, hst, he⟩ := hs
    exact ⟨st, hst, he.mono h fun _ _ => h.receives⟩
  | arrive o c site =>
    obtain ⟨st, hst, hp⟩ := hs
    exact ⟨st, hst, hp.mono h fun _ _ => h.receives⟩
  | bind e => exact Bound.mono h hs

/-! ## Performing a task -/

/-- How many methods and calls have been found. -/
def callCount (s : State) : Nat := s.calls.reachable.size + s.calls.edges.size

/-- The state `t` extends `s` without a change to a points-to set, and asks for nothing that is not
among the tasks `next`. Where there are such tasks, a method or a call is new. -/
structure Effect (p : Program) (s : State) (next : List Task) (t : State) : Prop
    extends Extends s t where
  objectsOf : ∀ i, t.arena.objectsOf i = s.arena.objectsOf i
  balanced : s.Balanced → t.Balanced
  newReachable : ∀ {c m}, (c, m) ∈ t.calls.reachable.toList → (c, m) ∈ s.calls.reachable.toList ∨
    ∀ site st, site.method = m → p.stmt site = .ok st → .execute c site ∈ next
  newEdges : ∀ {e}, e ∈ t.calls.edges.toList → e ∈ s.calls.edges.toList ∨
    .enter e.callee.1 e.callee.2 ∈ next ∧ .bind e ∈ next
  callCount_le : s.callCount ≤ t.callCount
  callCount_lt : next ≠ [] → s.callCount < t.callCount
  entries : t.calls.entries = s.calls.entries

theorem Prepares.effect (h : s.Prepares t) : Effect p s [] t :=
  ⟨h.toExtends, h.objectsOf, h.balanced, fun hm => Or.inl (h.calls ▸ hm),
    fun he => Or.inl (h.calls ▸ he), Nat.le_of_eq (by rw [callCount, callCount, h.calls]),
    fun hne => absurd rfl hne, by rw [h.calls]⟩

/-- What has been prepared beforehand does not matter to an effect. -/
theorem Prepares.effect_trans {next : List Task} (h : s.Prepares t) (he : Effect p t next u) :
    Effect p s next u :=
  ⟨h.toExtends.trans he.toExtends, fun i => by rw [he.objectsOf, h.objectsOf],
    fun hb => he.balanced (h.balanced hb),
    fun hm => (he.newReachable hm).imp (fun hm => h.calls ▸ hm) id,
    fun hm => (he.newEdges hm).imp (fun hm => h.calls ▸ hm) id,
    by rw [callCount, ← h.calls]; exact he.callCount_le,
    fun hne => by rw [callCount, ← h.calls]; exact he.callCount_lt hne,
    by rw [he.entries, h.calls]⟩

/-- Recording a method or a call changes neither points-to sets nor the flow. -/
theorem balanced_calls {calls : CallGraph ContextSite ContextMethod} (h : s.Balanced) :
    State.Balanced { s with calls } :=
  ⟨h.coherent, h.queued, h.target, h.flow⟩

theorem callCount_addEdge {e : CallEdge ContextSite ContextMethod} (h : ¬s.calls.hasEdge e = true) :
    s.callCount < State.callCount { s with calls := (s.calls.addEdge e).2 } := by
  have hsize : (s.calls.edges.insert e).size = s.calls.edges.size + 1 := by
    rw [Roster.size_insert]
    exact if_neg h
  show s.calls.reachable.size + _ < s.calls.reachable.size + (s.calls.edges.insert e).size
  omega

theorem callCount_addReachable {m : ContextMethod} (h : ¬s.calls.isReachable m = true) :
    s.callCount < State.callCount { s with calls := (s.calls.addReachable m).2 } := by
  have hsize : (s.calls.reachable.insert m).size = s.calls.reachable.size + 1 := by
    rw [Roster.size_insert]
    exact if_neg h
  show _ + s.calls.edges.size < (s.calls.reachable.insert m).size + s.calls.edges.size
  omega

theorem addCall_effect {e : CallEdge ContextSite ContextMethod} {next : List Task}
    (h : s.addCall e = (next, t)) : Effect p s next t ∧ e ∈ t.calls.edges.toList := by
  rw [addCall_eq] at h
  split at h
  · next hc =>
    cases h
    exact ⟨(Prepares.refl s).effect, Roster.contains_iff.1 hc⟩
  · next hc =>
    cases h
    refine ⟨⟨⟨.refl _, id, id, fun h => Roster.mem_insert.2 (Or.inl h), id⟩, fun _ => rfl,
      balanced_calls, Or.inl, fun he => ?_, Nat.le_of_lt (callCount_addEdge hc),
      fun _ => callCount_addEdge hc, rfl⟩, Roster.mem_insert.2 (Or.inr rfl)⟩
    rcases Roster.mem_insert.1 he with he | rfl
    · exact Or.inl he
    · exact Or.inr ⟨by simp, by simp⟩

theorem allocate_prepares {c : ContextId} {site : StmtId} {ty : Ty} {o : ObjId}
    (h : s.allocate p how c site ty = .ok (o, t)) :
    s.Prepares t ∧ t.Allocates p how c site ty o := by
  obtain ⟨context, hc, h⟩ := bind_eq_ok.1 h
  obtain ⟨method, hm, h⟩ := bind_eq_ok.1 h
  cases h
  have h₁ := s.contextId_prepares (how.heap context)
  have h₂ := (s.contextId (how.heap context)).2.objectId_prepares
    ⟨site, ty, method.decl.owner, (s.contextId (how.heap context)).1⟩
  refine ⟨h₁.trans h₂, context, method, (s.contextId (how.heap context)).1,
    (h₁.trans h₂).arena.context hc, hm, h₂.arena.context (s.arena.context_contextId _), ?_⟩
  exact (s.contextId (how.heap context)).2.arena.object_objectId _

theorem execute_effect {c : ContextId} {site : StmtId} {st : Stmt} {next : List Task}
    (h : s.execute p how c site st = .ok (next, t)) :
    Effect p s next t ∧ t.Executed p how t.Receives c site st := by
  cases st with
  | alloc lhs ty =>
    obtain ⟨⟨o, u⟩, hu, h⟩ := bind_eq_ok.1 h
    cases h
    obtain ⟨hp, context, method, heap, hc, hm, hh, ho⟩ := allocate_prepares hu
    have hs := u.send_prepares o (.var c lhs)
    exact ⟨(hp.trans hs).effect, o, ⟨context, method, heap, hs.arena.context hc, hm,
      hs.arena.context hh, hs.arena.object ho⟩, u.send_receives o (.var c lhs)⟩
  | copy lhs rhs =>
    cases h
    exact ⟨(s.connect_prepares _ _).effect, s.connect_flows _ _⟩
  | cast lhs rhs ty =>
    cases h
    exact ⟨(s.connect_prepares _ _).effect, s.connect_flows _ _⟩
  | loadField lhs access =>
    obtain ⟨base, f⟩ := access
    cases base with
    | none =>
      cases h
      exact ⟨(s.connect_prepares _ _).effect, s.connect_flows _ _⟩
    | some x =>
      cases h
      exact ⟨(Prepares.refl s).effect, trivial⟩
  | storeField access rhs =>
    obtain ⟨base, f⟩ := access
    cases base with
    | none =>
      cases h
      exact ⟨(s.connect_prepares _ _).effect, s.connect_flows _ _⟩
    | some x =>
      cases h
      exact ⟨(Prepares.refl s).effect, trivial⟩
  | invoke call =>
    by_cases hk : call.isStatic = true
    · simp only [execute, hk, if_true] at h
      obtain ⟨r, hr, h⟩ := bind_eq_ok.1 h
      cases r with
      | none => cases h
      | some m =>
        obtain ⟨context, hc, h⟩ := bind_eq_ok.1 h
        have hp := s.contextId_prepares (how.afterStaticCall context site)
        obtain ⟨he, hmem⟩ := addCall_effect (p := p) (pure_eq_ok.1 h)
        exact ⟨hp.effect_trans he, fun _ => ⟨m, context, _, hr,
          he.arena.context (hp.arena.context hc),
          he.arena.context (s.arena.context_contextId _), hmem⟩⟩
    · simp only [execute, hk, if_false, Bool.false_eq_true] at h
      cases h
      exact ⟨(Prepares.refl s).effect, fun hk' => absurd hk' hk⟩
  | _ =>
    cases h
    exact ⟨(Prepares.refl s).effect, trivial⟩

/-- Sending an object to a receiver that need not exist. -/
theorem sendThis_prepares (s : State) (o : ObjId) (c : ContextId) (this : Option VarId) :
    s.Prepares (match this with | some this => s.send o (.var c this) | none => s) ∧
      ∀ v, this = some v →
        (match this with | some this => s.send o (.var c this) | none => s).Receives
          (.var c v) o := by
  cases this with
  | none => exact ⟨.refl s, fun v hv => by cases hv⟩
  | some this =>
    refine ⟨s.send_prepares o (.var c this), fun v hv => ?_⟩
    cases hv
    exact s.send_receives o (.var c this)

theorem dispatch_effect {o : ObjId} {c : ContextId} {site : StmtId} {call : Invoke}
    {next : List Task} (h : s.dispatch p how o c site call = .ok (next, t)) :
    Effect p s next t ∧ t.LeadsFrom p how t.Receives o c site call := by
  obtain ⟨obj, ho, h⟩ := bind_eq_ok.1 h
  obtain ⟨r, hr, h⟩ := bind_eq_ok.1 h
  cases r with
  | none =>
    cases h
    refine ⟨(Prepares.refl s).effect, obj, ho, fun m hm => ?_⟩
    rw [hr] at hm
    cases hm
  | some m =>
    obtain ⟨heap, hh, h⟩ := bind_eq_ok.1 h
    obtain ⟨context, hc, h⟩ := bind_eq_ok.1 h
    obtain ⟨method, hm, h⟩ := bind_eq_ok.1 h
    have hcallee := s.arena.context_contextId (how.afterCall context site ⟨o, obj.container, heap⟩)
    have h₁ := s.contextId_prepares (how.afterCall context site ⟨o, obj.container, heap⟩)
    obtain ⟨h₂, hthis⟩ := sendThis_prepares
      (s.contextId (how.afterCall context site ⟨o, obj.container, heap⟩)).2 o
      (s.contextId (how.afterCall context site ⟨o, obj.container, heap⟩)).1 method.decl.this
    obtain ⟨he, hmem⟩ := addCall_effect (p := p) (pure_eq_ok.1 h)
    have h₃ := (h₁.trans h₂).toExtends.trans he.toExtends
    refine ⟨(h₁.trans h₂).effect_trans he, obj, h₃.arena.object ho, fun m' hm' => ?_⟩
    rw [hr] at hm'
    cases hm'
    exact ⟨method, context, heap, _, hm, h₃.arena.context hc, h₃.arena.context hh,
      (h₂.toExtends.trans he.toExtends).arena.context hcallee, hmem,
      fun this ht => he.receives (hthis this ht)⟩

theorem arrive_effect {o : ObjId} {c : ContextId} {site : StmtId} {st : Stmt} {next : List Task}
    (h : s.arrive p how o c site st = .ok (next, t)) :
    Effect p s next t ∧ t.Passed p how t.Receives o c site st := by
  cases st with
  | storeField access rhs =>
    cases h
    exact ⟨(s.connect_prepares _ _).effect, s.connect_flows _ _⟩
  | loadField lhs access =>
    cases h
    exact ⟨(s.connect_prepares _ _).effect, s.connect_flows _ _⟩
  | storeArray base index rhs =>
    cases h
    exact ⟨(s.connect_prepares _ _).effect, s.connect_flows _ _⟩
  | loadArray lhs base index =>
    cases h
    exact ⟨(s.connect_prepares _ _).effect, s.connect_flows _ _⟩
  | invoke call => exact dispatch_effect h
  | _ =>
    cases h
    exact ⟨(Prepares.refl s).effect, trivial⟩

theorem bind_prepares {e : CallEdge ContextSite ContextMethod} (h : s.bind p e = .ok t) :
    s.Prepares t ∧ t.Bound p e := by
  obtain ⟨kind, ⟨caller, site⟩, callee, m⟩ := e
  obtain ⟨r, hr, h⟩ := bind_eq_ok.1 h
  obtain ⟨st, hst, hcall⟩ := Program.invoke?_eq_ok.1 hr
  cases r with
  | none => cases h
  | some call =>
    have hinvoke : p.stmt site = .ok (.invoke call) := by
      cases st <;> simp only [Stmt.call?, reduceCtorEq, Option.some.injEq] at hcall
      rw [hcall] at hst
      exact hst
    obtain ⟨method, hm, h⟩ := bind_eq_ok.1 h
    obtain ⟨h₁, hargs⟩ := foldl_connect (fun a => .var caller a.1) (fun a => .var callee a.2)
      (call.args.zip method.decl.params) s
    cases hresult : call.result with
    | none =>
      simp only [hresult] at h
      cases h
      refine ⟨h₁, call, method, hinvoke, hm, fun arg param hap => hargs _ hap, fun lhs hl => ?_⟩
      rw [hresult] at hl
      cases hl
    | some lhs =>
      simp only [hresult] at h
      have h₂ := pointerId_prepares (((call.args.zip method.decl.params).foldl
        (fun s a => s.connect (.var caller a.1) (.var callee a.2)) s)) (.var caller lhs)
      obtain ⟨h₃, hrets⟩ := foldl_connect (fun v => .var callee v) (fun _ => .var caller lhs)
        method.returnVars (((call.args.zip method.decl.params).foldl
          (fun s a => s.connect (.var caller a.1) (.var callee a.2)) s).pointerId
            (.var caller lhs)).2
      cases h
      refine ⟨h₁.trans (h₂.trans h₃), call, method, hinvoke, hm,
        fun arg param hap => (h₂.trans h₃).flows (hargs _ hap), fun lhs' hl => ?_⟩
      rw [hresult] at hl
      cases hl
      exact ⟨⟨_, h₃.arena.pointer (Arena.pointer_pointerId _ _)⟩, hrets⟩

/-- **Performing a task** does what the task stands for, and whatever it newly asks for is among the
tasks that come next. -/
theorem perform_effect (hp : p.Accepted) {task : Task} {next : List Task}
    (h : s.perform p how task = .ok (next, t)) : Effect p s next t ∧ t.Done p how task := by
  cases task with
  | enter c m =>
    by_cases hr : s.calls.isReachable (c, m) = true
    · simp only [perform_enter, hr, if_true] at h
      cases h
      exact ⟨(Prepares.refl s).effect, Roster.contains_iff.1 hr⟩
    · simp only [perform_enter, hr, if_false, Bool.false_eq_true] at h
      obtain ⟨method, hm, h⟩ := bind_eq_ok.1 h
      cases h
      refine ⟨⟨⟨.refl _, id, fun h => Roster.mem_insert.2 (Or.inl h), id, id⟩, fun _ => rfl,
        balanced_calls, fun hcm => ?_, Or.inl, Nat.le_of_lt (callCount_addReachable hr),
        fun _ => callCount_addReachable hr, rfl⟩, Roster.mem_insert.2 (Or.inr rfl)⟩
      rcases Roster.mem_insert.1 hcm with hcm | hcm
      · exact Or.inl hcm
      · cases hcm
        refine Or.inr fun site st hsite hst => ?_
        exact List.mem_map.2 ⟨(site, st), (Program.mem_stmts hp hm).2 ⟨hsite, hst⟩, rfl⟩
  | execute c site =>
    obtain ⟨st, hst, h⟩ := bind_eq_ok.1 h
    obtain ⟨he, hd⟩ := execute_effect h
    exact ⟨he, st, hst, hd⟩
  | arrive o c site =>
    obtain ⟨st, hst, h⟩ := bind_eq_ok.1 h
    obtain ⟨he, hd⟩ := arrive_effect h
    exact ⟨he, st, hst, hd⟩
  | bind e =>
    obtain ⟨u, hu, h⟩ := bind_eq_ok.1 h
    cases h
    obtain ⟨hp, hb⟩ := bind_prepares hu
    exact ⟨hp.effect, hb⟩

/-- Performing tasks extends the state and changes no points-to set. -/
theorem drain_extends (hp : p.Accepted) :
    ∀ {limit : Nat} {tasks : List Task} {s t : State}, drain p how limit tasks s = .ok t →
      s.Extends t ∧ ∀ i, t.arena.objectsOf i = s.arena.objectsOf i
  | 0, [], s, _, h => by
    cases h
    exact ⟨.refl s, fun _ => rfl⟩
  | _ + 1, [], s, _, h => by
    cases h
    exact ⟨.refl s, fun _ => rfl⟩
  | 0, _ :: _, _, _, h => by cases h
  | limit + 1, task :: tasks, s, t, h => by
    obtain ⟨⟨next, u⟩, hu, h⟩ := bind_eq_ok.1 h
    obtain ⟨heffect, -⟩ := perform_effect hp hu
    obtain ⟨hext, ho⟩ := drain_extends hp h
    exact ⟨heffect.toExtends.trans hext, fun i => by rw [ho, heffect.objectsOf]⟩

end ObjectFlow.PointsTo.State
