import ObjectFlow.Proofs.Reading

/-!
# The rules as an inductive definition

`Derives` is the least relation closed under the rules of the points-to analysis. It speaks of
histories, objects and places that are spelled out and knows nothing of numbers, of pending objects
or of the order in which rules are applied. Whatever follows for all derivable facts follows by
induction: `Derives.sensible` says that they fit the program, which is why applying a rule never
fails.
-/

namespace ObjectFlow.PointsTo

/-- What an analysis finds. -/
inductive Fact
  /-- A context is in use. -/
  | context (c : History)
  /-- An object is in use. -/
  | object (o : ObjectOrigin)
  /-- A pointer is in use. -/
  | pointer (q : Place)
  /-- A method may run in a context. -/
  | reachable (c : History) (m : MethodId)
  /-- A call in a context leads to a method in a context. -/
  | call (e : CallEdge (History × StmtId) (History × MethodId))
  /-- What a pointer has another one has as well. -/
  | flow (source target : Place)
  /-- A pointer may point to an object. -/
  | holds (q : Place) (o : ObjectOrigin)

section Rules

variable (p : Program) (how : Sensitivity) (extra : List (Place × Place))

/-- The facts that follow from the rules, starting from the entry method. The flow may be extended
by edges of the list `extra` between pointers that are in use. -/
inductive Derives : Fact → Prop
  /-- The entry method runs in the empty context. -/
  | entry : Derives (.reachable how.startHistory p.entry)
  /-- `x = new T` -/
  | alloc {c site lhs ty method} : Derives (.reachable c site.method) →
      p.stmt site = .ok (.alloc lhs ty) → p.method site.method = .ok method →
      Derives (.holds (.var c lhs) ⟨site, ty, method.decl.owner, how.heapHistory c⟩)
  /-- `x = y` -/
  | copy {c site lhs rhs} : Derives (.reachable c site.method) →
      p.stmt site = .ok (.copy lhs rhs) → Derives (.flow (.var c rhs) (.var c lhs))
  /-- `x = (T) y` -/
  | cast {c site lhs rhs ty} : Derives (.reachable c site.method) →
      p.stmt site = .ok (.cast lhs rhs ty) → Derives (.flow (.var c rhs) (.var c lhs))
  /-- `x = C.f` -/
  | staticLoad {c site lhs f} : Derives (.reachable c site.method) →
      p.stmt site = .ok (.loadField lhs ⟨none, f⟩) → Derives (.flow (.staticField f) (.var c lhs))
  /-- `C.f = y` -/
  | staticStore {c site f rhs} : Derives (.reachable c site.method) →
      p.stmt site = .ok (.storeField ⟨none, f⟩ rhs) → Derives (.flow (.var c rhs) (.staticField f))
  /-- `r = C.m(...)` -/
  | staticCall {c site call m} : Derives (.reachable c site.method) →
      p.stmt site = .ok (.invoke call) → call.kind = .static →
      p.hierarchy.callee none call = .ok (some m) →
      Derives (.call ⟨.static, (c, site), (how.historyAfterStaticCall c site, m)⟩)
  /-- `x.f = y` -/
  | store {c site x f rhs o} : Derives (.reachable c site.method) →
      p.stmt site = .ok (.storeField ⟨some x, f⟩ rhs) → Derives (.holds (.var c x) o) →
      Derives (.flow (.var c rhs) (.instanceField o f))
  /-- `y = x.f` -/
  | load {c site lhs x f o} : Derives (.reachable c site.method) →
      p.stmt site = .ok (.loadField lhs ⟨some x, f⟩) → Derives (.holds (.var c x) o) →
      Derives (.flow (.instanceField o f) (.var c lhs))
  /-- `x[i] = y` -/
  | arrayStore {c site x index rhs o} : Derives (.reachable c site.method) →
      p.stmt site = .ok (.storeArray x index rhs) → Derives (.holds (.var c x) o) →
      Derives (.flow (.var c rhs) (.elements o))
  /-- `y = x[i]` -/
  | arrayLoad {c site lhs x index o} : Derives (.reachable c site.method) →
      p.stmt site = .ok (.loadArray lhs x index) → Derives (.holds (.var c x) o) →
      Derives (.flow (.elements o) (.var c lhs))
  /-- `r = x.m(...)` -/
  | instanceCall {c site call x o m} : Derives (.reachable c site.method) →
      p.stmt site = .ok (.invoke call) → call.receiver = some x → Derives (.holds (.var c x) o) →
      p.hierarchy.callee o.ty.class? call = .ok (some m) →
      Derives (.call ⟨call.kind, (c, site), (how.historyAfterCall c site o, m)⟩)
  /-- The method found from the class of an object has the object as its receiver. -/
  | this {c site call x o m method this} : Derives (.reachable c site.method) →
      p.stmt site = .ok (.invoke call) → call.receiver = some x → Derives (.holds (.var c x) o) →
      p.hierarchy.callee o.ty.class? call = .ok (some m) → p.method m = .ok method →
      method.decl.this = some this →
      Derives (.holds (.var (how.historyAfterCall c site o) this) o)
  /-- What a call leads to runs. -/
  | callee {e} : Derives (.call e) → Derives (.reachable e.callee.1 e.callee.2)
  /-- Arguments flow to parameters. -/
  | argument {e call method arg param} : Derives (.call e) → p.stmt e.site.2 = .ok (.invoke call) →
      p.method e.callee.2 = .ok method → (arg, param) ∈ call.args.zip method.decl.params →
      Derives (.flow (.var e.site.1 arg) (.var e.callee.1 param))
  /-- Returned variables flow to the result. -/
  | result {e call method lhs value} : Derives (.call e) → p.stmt e.site.2 = .ok (.invoke call) →
      p.method e.callee.2 = .ok method → call.result = some lhs → value ∈ method.returnVars →
      Derives (.flow (.var e.callee.1 value) (.var e.site.1 lhs))
  /-- Objects follow the flow. -/
  | propagate {q r o} : Derives (.flow q r) → Derives (.holds q o) → Derives (.holds r o)
  /-- An edge is added by hand. -/
  | extra {q r} : (q, r) ∈ extra → Derives (.pointer q) → Derives (.pointer r) →
      Derives (.flow q r)
  -- The remaining rules say what is in use because a fact speaks of it.
  | contextOfMethod {c m} : Derives (.reachable c m) → Derives (.context c)
  | contextOfObject {o} : Derives (.object o) → Derives (.context o.context)
  | objectOfHolds {q o} : Derives (.holds q o) → Derives (.object o)
  | pointerOfHolds {q o} : Derives (.holds q o) → Derives (.pointer q)
  | source {q r} : Derives (.flow q r) → Derives (.pointer q)
  | target {q r} : Derives (.flow q r) → Derives (.pointer r)
  | resultPointer {e call lhs} : Derives (.call e) → p.stmt e.site.2 = .ok (.invoke call) →
      call.result = some lhs → Derives (.pointer (.var e.site.1 lhs))

/-! ## Derivable facts fit the program -/

/-- A variable belongs to a method that runs in its context. -/
def InScope : Place → Prop
  | .var c v => ∃ m, p.Declares m v ∧ Derives p how extra (.reachable c m)
  | .instanceField .. | .staticField _ | .elements _ => True

/-- The class of an object is a class of the program. -/
def HasClass (o : ObjectOrigin) : Prop :=
  ∀ c, o.ty.class? = some c → c.index < p.model.classes.size

/-- The identifiers in a fact name things of the program. -/
def Sensible : Fact → Prop
  | .context _ => True
  | .object o => HasClass p o
  | .pointer q => InScope p how extra q
  | .reachable _ m => ∃ method, p.method m = .ok method
  | .call e => (∃ call, p.stmt e.site.2 = .ok (.invoke call)) ∧
      (∃ method, p.method e.callee.2 = .ok method) ∧
      Derives p how extra (.reachable e.site.1 e.site.2.method)
  | .flow q r => InScope p how extra q ∧ InScope p how extra r
  | .holds q o => InScope p how extra q ∧ HasClass p o

variable {p how extra}

theorem inScope_stmt (hp : p.Accepted) {c : History} {site : StmtId} {st : Stmt} {v : VarId}
    (hr : Derives p how extra (.reachable c site.method)) (hst : p.stmt site = .ok st)
    (hv : v ∈ st.defined.toList ++ st.used) : InScope p how extra (.var c v) :=
  ⟨site.method, Program.declares_of_stmt hp hst hv, hr⟩

theorem inScope_method (hp : p.Accepted) {c : History} {m : MethodId} {method : Method} {v : VarId}
    (hr : Derives p how extra (.reachable c m)) (hm : p.method m = .ok method)
    (hv : v ∈ method.decl.params ++ method.decl.this.toList) : InScope p how extra (.var c v) :=
  ⟨m, Program.declares_of_method hp hm hv, hr⟩

theorem inScope_returned (hp : p.Accepted) {c : History} {m : MethodId} {method : Method}
    {v : VarId} (hr : Derives p how extra (.reachable c m)) (hm : p.method m = .ok method)
    (hv : v ∈ method.returnVars) : InScope p how extra (.var c v) := by
  obtain ⟨site, rfl, hst⟩ := (Program.mem_returnVars hp hm).1 hv
  exact inScope_stmt hp hr hst (by simp [Stmt.used])

/-- **Derivable facts are sensible.** -/
theorem Derives.sensible (hp : p.Accepted) {f : Fact} (h : Derives p how extra f) :
    Sensible p how extra f := by
  induction h with
  | entry => exact Program.exists_entry hp
  | alloc hr hst _ ih =>
    exact ⟨inScope_stmt hp hr hst (by simp [Stmt.defined]),
      fun c hc => Program.class_lt_of_alloc hp hst hc⟩
  | copy hr hst _ =>
    exact ⟨inScope_stmt hp hr hst (by simp [Stmt.used]),
      inScope_stmt hp hr hst (by simp [Stmt.defined])⟩
  | cast hr hst _ =>
    exact ⟨inScope_stmt hp hr hst (by simp [Stmt.used]),
      inScope_stmt hp hr hst (by simp [Stmt.defined])⟩
  | staticLoad hr hst _ => exact ⟨trivial, inScope_stmt hp hr hst (by simp [Stmt.defined])⟩
  | staticStore hr hst _ => exact ⟨inScope_stmt hp hr hst (by simp [Stmt.used]), trivial⟩
  | staticCall hr hst _ hm _ => exact ⟨⟨_, hst⟩, Program.method_of_callee hp hm, hr⟩
  | store hr hst _ _ _ => exact ⟨inScope_stmt hp hr hst (by simp [Stmt.used]), trivial⟩
  | load hr hst _ _ _ => exact ⟨trivial, inScope_stmt hp hr hst (by simp [Stmt.defined])⟩
  | arrayStore hr hst _ _ _ => exact ⟨inScope_stmt hp hr hst (by simp [Stmt.used]), trivial⟩
  | arrayLoad hr hst _ _ _ => exact ⟨trivial, inScope_stmt hp hr hst (by simp [Stmt.defined])⟩
  | instanceCall hr hst _ _ hm _ _ => exact ⟨⟨_, hst⟩, Program.method_of_callee hp hm, hr⟩
  | this hr hst hx ho hm hmethod hthis _ ih =>
    have hreach := (Derives.instanceCall hr hst hx ho hm).callee
    exact ⟨inScope_method hp hreach hmethod (by simp [hthis]), ih.2⟩
  | callee _ ih => exact ih.2.1
  | argument he hst hm hap ih =>
    exact ⟨inScope_stmt hp ih.2.2 hst (by simp [Stmt.used, (List.of_mem_zip hap).1]),
      inScope_method hp he.callee hm (List.mem_append_left _ (List.of_mem_zip hap).2)⟩
  | result he hst hm hl hv ih =>
    exact ⟨inScope_returned hp he.callee hm hv,
      inScope_stmt hp ih.2.2 hst (by simp [Stmt.defined, hl])⟩
  | propagate _ _ ihf ihh => exact ⟨ihf.2, ihh.2⟩
  | extra _ _ _ ihq ihr => exact ⟨ihq, ihr⟩
  | contextOfMethod _ _ => trivial
  | contextOfObject _ _ => trivial
  | objectOfHolds _ ih => exact ih.2
  | pointerOfHolds _ ih => exact ih.1
  | source _ ih => exact ih.1
  | target _ ih => exact ih.2
  | resultPointer _ hst hl ih => exact inScope_stmt hp ih.2.2 hst (by simp [Stmt.defined, hl])

/-- Where an object is at the base or receiver of a statement, the method of the statement runs. -/
theorem Derives.reachable_of_through (hp : p.Accepted) {c : History} {v : VarId} {o : ObjectOrigin}
    (h : Derives p how extra (.holds (.var c v) o)) {site : StmtId} {st : Stmt}
    (hst : p.stmt site = .ok st) (hv : st.through = some v) :
    Derives p how extra (.reachable c site.method) := by
  obtain ⟨⟨m, ⟨d, hd, rfl⟩, hr⟩, -⟩ := h.sensible hp
  obtain ⟨d', hd', hsite⟩ := Program.declares_of_stmt hp hst
    (List.mem_append_right _ (Stmt.mem_used_of_through hv))
  rw [hd] at hd'
  cases hd'
  exact hsite ▸ hr

end Rules

end ObjectFlow.PointsTo
