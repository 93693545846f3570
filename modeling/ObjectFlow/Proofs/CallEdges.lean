import ObjectFlow.Proofs.Fixpoint
import ObjectFlow.Proofs.Subtyping
import ObjectFlow.Proofs.Visits

/-!
# Where calls lead

The class hierarchy and a points-to analysis find call edges in different ways, but both ask the
hierarchy for the callee of a call on a receiver of some class. So a callee always has the
subsignature named in the call, and where the class named in the call declares a method itself,
arguments match the parameters of a callee that takes as many as this method (`callEdge_fills`).
Nothing makes a method that is inherited or that overrides another one take as many parameters as
the call has arguments (`inheriting_unfilled`).

Where the receivers of calls fit the classes named in the calls, every call that a points-to
analysis finds is one that the class hierarchy allows (`plainCalls_allowed`).
-/

namespace ObjectFlow

open PointsTo PointsTo.State

/-! ## Arguments and parameters -/

/-- Every argument of a call goes to a parameter of the callee, and every parameter gets one. -/
structure Invoke.Fills (call : Invoke) (callee : MethodDecl) : Prop where
  arity : call.args.length = callee.params.length
  args : (call.args.zip callee.params).map Prod.fst = call.args
  params : (call.args.zip callee.params).map Prod.snd = callee.params

theorem Invoke.fills_iff {call : Invoke} {callee : MethodDecl} :
    call.Fills callee ↔ call.args.length = callee.params.length := by
  constructor
  · exact Fills.arity
  · intro h
    exact ⟨h, List.map_fst_zip h.le, List.map_snd_zip h.ge⟩

namespace Program

variable {p : Program} {call : Invoke} {m : MethodId} {site : StmtId}

/-- The callee of a call is declared under the subsignature named in the call. -/
theorem exists_method_of_callee (hp : p.Accepted) {receiver : Option ClassId}
    (h : p.hierarchy.callee receiver call = .ok (some m)) :
    ∃ method, p.method m = .ok method ∧
      method.decl.subsignature = call.target.subsignature := by
  obtain ⟨owner, hdeclared⟩ := exists_declared?_of_callee hp h
  obtain ⟨d, hd, -, hsub⟩ := Model.exists_of_declared? hdeclared
  exact ⟨_, (method_eq_ok hp).2 ⟨d, hd, rfl⟩, hsub⟩

/-- A static call leads to the very method that it names. -/
theorem declaredAs_of_static (hp : p.Accepted) (hk : call.kind = .static)
    {receiver : Option ClassId} {method : Method}
    (h : p.hierarchy.callee receiver call = .ok (some m)) (hm : p.method m = .ok method) :
    method.decl ∈ p.model.methods ∧ Model.DeclaredAs method.decl call.target := by
  simp only [Hierarchy.callee, hk] at h
  obtain ⟨d, hd, howner, hsub⟩ := Model.exists_of_declared? (declared_eq_ok hp h)
  obtain ⟨d', hd', rfl⟩ := (method_eq_ok hp).1 hm
  rw [hd] at hd'
  cases hd'
  exact ⟨Array.mem_of_getElem? hd, howner, hsub⟩

theorem formedCall (hp : p.Accepted) (h : p.stmt site = .ok (.invoke call)) :
    p.model.FormedCall call := by
  obtain ⟨method, hm, hbody⟩ := stmt_eq_ok.1 h
  obtain ⟨d, hd, rfl⟩ := (method_eq_ok hp).1 hm
  exact (hp.wellFormed.methods hd).stmts _ (Array.mem_of_getElem? hbody)

end Program

/-! ## Edges of call graphs -/

section Edges

variable {p : Program} {how : Sensitivity} {extra : List (Place × Place)}
  {e : CallEdge StmtId MethodId}

/-- The call of an edge finds the callee on a receiver of some class, if it has one. -/
def Leads (p : Program) (e : CallEdge StmtId MethodId) : Prop :=
  ∃ call receiver, p.stmt e.site = .ok (.invoke call) ∧ call.kind = e.kind ∧
    p.hierarchy.callee receiver call = .ok (some e.callee)

/-- An edge of the call graph of the class hierarchy, or of the call graph that a points-to analysis
has found at some point of a run. -/
def IsCallEdge (p : Program) (e : CallEdge StmtId MethodId) : Prop :=
  (∃ g, CallGraph.hierarchical p = .ok g ∧ e ∈ g.edges.toList) ∨
    ∃ how s c d, Reaches p how anyExtra s ∧
      ⟨e.kind, (c, e.site), (d, e.callee)⟩ ∈ s.calls.edges.toList

/-- A call edge without the contexts at its ends. -/
def plainEdge (e : CallEdge (History × StmtId) (History × MethodId)) : CallEdge StmtId MethodId :=
  ⟨e.kind, e.site.2, e.callee.2⟩

/-- What makes a call lead to a method: it is static, or an object has come to its receiver. -/
theorem PointsTo.Derives.call_cases {e : CallEdge (History × StmtId) (History × MethodId)}
    (h : Derives p how extra (.call e)) :
    ∃ call, p.stmt e.site.2 = .ok (.invoke call) ∧ call.kind = e.kind ∧
      (call.kind = .static ∧ p.hierarchy.callee none call = .ok (some e.callee.2) ∨
        ∃ x o, call.receiver = some x ∧ Derives p how extra (.holds (.var e.site.1 x) o) ∧
          p.hierarchy.callee o.ty.class? call = .ok (some e.callee.2)) := by
  cases h with
  | staticCall _ hst hk hm => exact ⟨_, hst, hk, .inl ⟨hk, hm⟩⟩
  | instanceCall _ hst hx ho hm => exact ⟨_, hst, rfl, .inr ⟨_, _, hx, ho, hm⟩⟩

theorem PointsTo.Derives.leads {e : CallEdge (History × StmtId) (History × MethodId)}
    (h : Derives p how extra (.call e)) : Leads p (plainEdge e) := by
  obtain ⟨call, hst, hk, ⟨-, hm⟩ | ⟨x, o, -, -, hm⟩⟩ := h.call_cases
  · exact ⟨call, none, hst, hk, hm⟩
  · exact ⟨call, o.ty.class?, hst, hk, hm⟩

theorem CallGraph.Allowed.leads (h : CallGraph.Allowed p e) : Leads p e := by
  obtain ⟨call, hst, hk, receiver, -, hm⟩ := h
  exact ⟨call, receiver, hst, hk, hm⟩

theorem IsCallEdge.leads (hp : p.Accepted) (he : IsCallEdge p e) : Leads p e := by
  rcases he with ⟨g, hg, he⟩ | ⟨how, s, c, d, hs, he⟩
  · obtain ⟨g', hg', hfollows⟩ := CallGraph.exists_follows hp
    rw [hg] at hg'
    cases hg'
    exact ((hfollows.edges e).1 he).2.leads
  · obtain ⟨extra, hextra⟩ := exists_extra hp hs
    obtain ⟨f, hres, hd⟩ := grounded_of_reaches hp hextra _ (show s.Finds (.call _) from he)
    cases hres with
    | call => exact hd.leads

/-- **Arguments at call edges.** Whatever call graph an edge is in, its callee has the subsignature
named in the call. A static call fills the parameters of its callee. Any other call does so exactly
if the callee takes as many parameters as the method that the class named in the call declares,
provided that it declares one. -/
theorem callEdge_fills (hp : p.Accepted) (he : IsCallEdge p e) :
    ∃ call callee, p.stmt e.site = .ok (.invoke call) ∧ call.kind = e.kind ∧
      p.method e.callee = .ok callee ∧
      callee.decl.subsignature = call.target.subsignature ∧
      (call.kind = .static → call.Fills callee.decl) ∧
      ∀ d ∈ p.model.methods, Model.DeclaredAs d call.target →
        (call.Fills callee.decl ↔ d.params.length = callee.decl.params.length) := by
  obtain ⟨call, receiver, hst, hk, hfound⟩ := he.leads hp
  obtain ⟨callee, hcallee, hsub⟩ := Program.exists_method_of_callee hp hfound
  have harity := (Program.formedCall hp hst).arity
  refine ⟨call, callee, hst, hk, hcallee, hsub, fun hstatic => ?_, fun d hd hdeclared => ?_⟩
  · obtain ⟨hmem, hdeclared⟩ := Program.declaredAs_of_static hp hstatic hfound hcallee
    exact Invoke.fills_iff.2 (harity _ hmem hdeclared)
  · rw [Invoke.fills_iff, harity d hd hdeclared]

/-- The call in `boxes` fills the parameter of `id`. -/
theorem boxes_callEdge_fills :
    (∃ g, CallGraph.hierarchical (.index boxes) = .ok g ∧
      ⟨.virtual, ⟨⟨0⟩, 2⟩, ⟨1⟩⟩ ∈ g.edges.toList) ∧
    ∃ call callee, (Program.index boxes).stmt ⟨⟨0⟩, 2⟩ = .ok (.invoke call) ∧
      (Program.index boxes).method ⟨1⟩ = .ok callee ∧ call.Fills callee.decl := by
  obtain ⟨g, hg, hmem⟩ := exists_ok_of_any (CallGraph.hierarchical (.index boxes))
    (fun g => decide (⟨.virtual, ⟨⟨0⟩, 2⟩, ⟨1⟩⟩ ∈ g.edges.toList)) (by decide +kernel)
  obtain ⟨call, callee, hst, -, hcallee, -, -, hfills⟩ :=
    callEdge_fills boxes_accepted (.inl ⟨g, hg, of_decide_eq_true hmem⟩)
  refine ⟨⟨g, hg, of_decide_eq_true hmem⟩, call, callee, hst, hcallee, ?_⟩
  cases hst
  cases hcallee
  exact (hfills _ (Array.mem_of_getElem? (i := 1) rfl) ⟨rfl, rfl⟩).2 rfl

/-- The class named in the call inherits the method, which takes a parameter. The call has no
argument. -/
def inheriting : Model where
  classes := #[{ name := "Main" }, { name := "Base" },
    { name := "Derived", superclass := some ⟨1⟩ }]
  methods := #[
    { owner := ⟨0⟩, name := "main", subsignature := "void main()", isStatic := true,
      returnType := .void,
      body := #[.alloc ⟨0⟩ (.ref ⟨2⟩),
        .invoke ⟨.virtual, none, some ⟨0⟩, ⟨⟨2⟩, "void take(Base)"⟩, []⟩] },
    { owner := ⟨1⟩, name := "take", subsignature := "void take(Base)", params := [⟨2⟩],
      this := some ⟨1⟩, returnType := .void }]
  vars := #[⟨⟨0⟩, "derived", .ref ⟨2⟩⟩, ⟨⟨1⟩, "this", .ref ⟨1⟩⟩, ⟨⟨1⟩, "item", .ref ⟨1⟩⟩]
  entry := ⟨0⟩

/-- `inheriting` is accepted although its call leaves the parameter of its callee unfilled. -/
theorem inheriting_unfilled :
    (Program.index inheriting).Accepted ∧
    (∃ g, CallGraph.hierarchical (.index inheriting) = .ok g ∧
      ⟨.virtual, ⟨⟨0⟩, 1⟩, ⟨1⟩⟩ ∈ g.edges.toList) ∧
    (∃ s, (initial .insensitive .fifo).solve (.index inheriting) .insensitive 100 = .ok s ∧
      ⟨.virtual, (⟨0⟩, ⟨⟨0⟩, 1⟩), (⟨0⟩, ⟨1⟩)⟩ ∈ s.calls.edges.toList) ∧
    ∃ call callee, (Program.index inheriting).stmt ⟨⟨0⟩, 1⟩ = .ok (.invoke call) ∧
      (Program.index inheriting).method ⟨1⟩ = .ok callee ∧
      call.args.length = 0 ∧ callee.decl.params.length = 1 := by
  have hempty : inheriting.violations = [] := by decide +kernel
  obtain ⟨g, hg, hmem⟩ := exists_ok_of_any (CallGraph.hierarchical (.index inheriting))
    (fun g => decide (⟨.virtual, ⟨⟨0⟩, 1⟩, ⟨1⟩⟩ ∈ g.edges.toList)) (by decide +kernel)
  obtain ⟨s, hs, hmem'⟩ := exists_ok_of_any
    ((initial .insensitive .fifo).solve (.index inheriting) .insensitive 100)
    (fun s => decide (⟨.virtual, (⟨0⟩, ⟨⟨0⟩, 1⟩), (⟨0⟩, ⟨1⟩)⟩ ∈ s.calls.edges.toList))
    (by decide +kernel)
  exact ⟨⟨inheriting, by rw [Program.ofModel, hempty]⟩, ⟨g, hg, of_decide_eq_true hmem⟩,
    ⟨s, hs, of_decide_eq_true hmem'⟩, _, _, rfl, rfl, rfl, rfl⟩

end Edges

/-! ## Calls that the class hierarchy allows -/

/-- The class of an object at the receiver of a virtual or interface call is a subtype of the class
named in the call. -/
def PointsTo.Result.Fits (r : Result) (p : Program) : Prop :=
  ∀ ⦃site call x o obj c⦄, p.stmt site = .ok (.invoke call) →
    call.kind = .virtual ∨ call.kind = .interface → call.receiver = some x → o ∈ r.pointsTo x →
    r.arena.object o = .ok obj → obj.class? = some c →
    p.hierarchy.isSubtype c call.target.owner = .ok true

section Allowed

variable {p : Program} {how : Sensitivity} {s : State} {r : Result}
  {g : CallGraph StmtId MethodId}

/-- Receivers fit as far as the rules are concerned. -/
def ReceiversFit (p : Program) (how : Sensitivity) : Prop :=
  ∀ ⦃site call h x o c⦄, p.stmt site = .ok (.invoke call) →
    call.kind = .virtual ∨ call.kind = .interface → call.receiver = some x →
    Derives p how [] (.holds (.var h x) o) → o.ty.class? = some c →
    p.hierarchy.isSubtype c call.target.owner = .ok true

/-- What can be derived is found when nothing waits, so it fits if the result fits. -/
theorem receiversFit_of_fits (hp : p.Accepted) (hs : Reaches p how noExtra s)
    (hend : s.pending.isEmpty = true) {metrics : Bool}
    (hfits : (Result.ofState s metrics).Fits p) : ReceiversFit p how := by
  intro site call h x o c hst hk hx hholds hc
  have hshows := (shows_iff_derives_of_isEmpty hp hs hend).2 hholds
  obtain ⟨i, id, hi, hid, hknows⟩ := shows_holds.1 hshows
  obtain ⟨pointer, hpointer, hnames⟩ := hi
  obtain ⟨obj, hobj, -, -, hty, -⟩ := Arena.spells_iff.1 hid
  cases hnames with
  | @var context _ _ hcontext =>
    have hmem := (knows_iff_of_isEmpty (balanced_of_reaches hp hs) hend).1 hknows
    refine hfits hst hk hx (Result.mem_pointsTo.2 ⟨context, i, hpointer, hmem⟩) hobj ?_
    rw [AbstractObject.class?, hty, hc]

/-- The call graph of the hierarchy has the methods and the calls that a fact speaks of. -/
def Admitted (g : CallGraph StmtId MethodId) : Fact → Prop
  | .reachable _ m => m ∈ g.reachable.toList
  | .call e => plainEdge e ∈ g.edges.toList
  | _ => True

/-- A call on an object that fits may lead where dispatch on the class of the object leads. -/
theorem mayCall_of_fits (hp : p.Accepted) (hm : p.model.Stratified) (hfit : ReceiversFit p how)
    {site : StmtId} {call : Invoke} {h : History} {x : VarId} {o : ObjectOrigin} {m : MethodId}
    (hst : p.stmt site = .ok (.invoke call)) (hx : call.receiver = some x)
    (ho : Derives p how [] (.holds (.var h x) o))
    (hfound : p.hierarchy.callee o.ty.class? call = .ok (some m)) : p.MayCall call m := by
  have hdispatched : call.kind = .virtual ∨ call.kind = .interface → p.MayCall call m := by
    intro hk
    refine ⟨o.ty.class?, fun c hc => ?_, hfound⟩
    exact Program.below_of_isSubtype hp hm (hfit hst hk hx ho hc)
  have hdirect : call.kind = .static ∨ call.kind = .special → p.MayCall call m := by
    intro hk
    rw [Program.callee_eq_callee_none hk] at hfound
    exact (Program.mayCall_iff_callee_none hk).2 hfound
  cases hk : call.kind with
  | static => exact hdirect (.inl hk)
  | special => exact hdirect (.inr hk)
  | virtual => exact hdispatched (.inl hk)
  | interface => exact hdispatched (.inr hk)

theorem PointsTo.Derives.admitted (hp : p.Accepted) (hm : p.model.Stratified)
    (hfit : ReceiversFit p how) (hg : CallGraph.Follows p g) {f : Fact} (h : Derives p how [] f) :
    Admitted g f := by
  induction h with
  | entry => exact hg.entry
  | staticCall _ hst hk hfound ihr =>
    exact (hg.edges _).2 ⟨ihr, _, hst, hk, (Program.mayCall_iff_callee_none (.inl hk)).2 hfound⟩
  | instanceCall _ hst hx ho hfound ihr _ =>
    exact (hg.edges _).2 ⟨ihr, _, hst, rfl, mayCall_of_fits hp hm hfit hst hx ho hfound⟩
  | callee _ ih => exact hg.callees _ ih
  | _ => trivial

/-- **Calls within the hierarchy.** Where superclasses and interfaces keep to their places and
receivers fit the classes named in calls, a points-to analysis finds no method and no call that the
class hierarchy does not allow. -/
theorem plainCalls_allowed (hp : p.Accepted) (hm : p.model.Stratified) (hr : r.IsOutcome p)
    (hfits : r.Fits p) :
    ∃ g, CallGraph.hierarchical p = .ok g ∧
      (∀ m ∈ r.plainCalls.reachable.toList, m ∈ g.reachable.toList) ∧
      ∀ e ∈ r.plainCalls.edges.toList, e ∈ g.edges.toList := by
  obtain ⟨how, s, metrics, hs, hend, rfl⟩ := hr
  obtain ⟨g, hg, hfollows⟩ := CallGraph.exists_follows hp
  have hground := grounded_of_noExtra hp hs
  have hfit := receiversFit_of_fits hp hs hend hfits
  refine ⟨g, hg, fun m hmem => ?_, fun e hmem => ?_⟩
  · obtain ⟨c, hc⟩ := Result.mem_reachable.1 hmem
    obtain ⟨f, hres, hd⟩ := hground (.reachable (c, m)) hc
    cases hres with
    | reachable => exact hd.admitted hp hm hfit hfollows
  · obtain ⟨c, d, he⟩ := Result.mem_edges.1 hmem
    obtain ⟨f, hres, hd⟩ := hground (.call _) he
    cases hres with
    | call => exact hd.admitted hp hm hfit hfollows

/-- A shape is measured through the interface that two classes implement. Only one of them has
instances. -/
def shapes : Model where
  classes := #[{ name := "Main" }, { name := "Shape", isInterface := true, isAbstract := true },
    { name := "Circle", interfaces := [⟨1⟩] }, { name := "Square", interfaces := [⟨1⟩] }]
  methods := #[
    { owner := ⟨0⟩, name := "main", subsignature := "void main()", isStatic := true,
      returnType := .void,
      body := #[.alloc ⟨0⟩ (.ref ⟨2⟩),
        .invoke ⟨.interface, none, some ⟨0⟩, ⟨⟨1⟩, "void measure()"⟩, []⟩] },
    { owner := ⟨1⟩, name := "measure", subsignature := "void measure()", isAbstract := true,
      this := some ⟨1⟩, returnType := .void },
    { owner := ⟨2⟩, name := "measure", subsignature := "void measure()", this := some ⟨2⟩,
      returnType := .void },
    { owner := ⟨3⟩, name := "measure", subsignature := "void measure()", this := some ⟨3⟩,
      returnType := .void }]
  vars := #[⟨⟨0⟩, "shape", .ref ⟨1⟩⟩, ⟨⟨1⟩, "this", .ref ⟨1⟩⟩, ⟨⟨2⟩, "this", .ref ⟨2⟩⟩,
    ⟨⟨3⟩, "this", .ref ⟨3⟩⟩]
  entry := ⟨0⟩

theorem shapes_accepted : (Program.index shapes).Accepted := by
  have h : shapes.violations = [] := by decide +kernel
  exact ⟨shapes, by rw [Program.ofModel, h]⟩

theorem shapes_stratified : shapes.Stratified := by
  constructor <;> simp [shapes]

/-- All objects of `shapes` are circles, and its only call asks for a shape. -/
theorem shapes_fits (h : ∀ o ∈ r.arena.objects.toList, o.ty = .ref ⟨2⟩) :
    r.Fits (.index shapes) := by
  intro site call x o obj c hst hk hx ho hobj hc
  have hcalls : ∀ d ∈ shapes.methods.toList, ∀ st ∈ d.body.toList, st = .alloc ⟨0⟩ (.ref ⟨2⟩) ∨
      st = .invoke ⟨.interface, none, some ⟨0⟩, ⟨⟨1⟩, "void measure()"⟩, []⟩ := by decide
  obtain ⟨method, hm, hbody⟩ := Program.stmt_eq_ok.1 hst
  obtain ⟨d, hd, rfl⟩ := (Program.method_eq_ok shapes_accepted).1 hm
  have hcall := hcalls d (Array.mem_def.1 (Array.mem_of_getElem? hd)) _
    (Array.mem_def.1 (Array.mem_of_getElem? hbody))
  have hty : obj.ty = .ref ⟨2⟩ := by
    rw [Arena.object_eq_ok, Roster.get?_eq_getElem?] at hobj
    exact h obj (List.mem_of_getElem? hobj)
  rw [AbstractObject.class?, hty] at hc
  cases hc
  rcases hcall with hcall | hcall
  · cases hcall
  · cases hcall
    decide +kernel

/-- In `shapes` the hierarchy allows a call to each class, and the points-to analysis finds one of
the two. -/
theorem shapes_plainCalls_allowed :
    (Program.index shapes).Accepted ∧ (Program.index shapes).model.Stratified ∧
    ∃ (r : Result) (g : CallGraph StmtId MethodId),
      r.IsOutcome (.index shapes) ∧ r.Fits (.index shapes) ∧
      CallGraph.hierarchical (.index shapes) = .ok g ∧
      r.plainCalls.edges.toList = [⟨.interface, ⟨⟨0⟩, 1⟩, ⟨2⟩⟩] ∧
      ⟨.interface, ⟨⟨0⟩, 1⟩, ⟨2⟩⟩ ∈ g.edges.toList := by
  obtain ⟨r, hr, htest⟩ := exists_ok_of_any
    (analyze (.index shapes) { sensitivity := .object 1, discipline := .lifo } 100)
    (fun r => decide (r.plainCalls.edges.toList = [⟨.interface, ⟨⟨0⟩, 1⟩, ⟨2⟩⟩] ∧
      ∀ o ∈ r.arena.objects.toList, o.ty = .ref ⟨2⟩)) (by decide +kernel)
  obtain ⟨hedges, hobjects⟩ := of_decide_eq_true htest
  have hout := Result.isOutcome_of_analyze hr
  have hfits := shapes_fits hobjects
  obtain ⟨g, hg, -, hsub⟩ := plainCalls_allowed shapes_accepted shapes_stratified hout hfits
  exact ⟨shapes_accepted, shapes_stratified, r, g, hout, hfits, hg, hedges,
    hsub _ (by simp [hedges])⟩

end Allowed

end ObjectFlow
