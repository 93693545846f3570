import ObjectFlow.Proofs.Confluence
import ObjectFlow.Proofs.Results

/-!
# More context adds nothing

An analysis that remembers fewer calls sees the facts of one that remembers more as if through a
coarser lens. `Fact.coarsen k` is that lens: the contexts of methods are cut to their newest `k`
elements and heap contexts to their newest `k - 1`, also in the objects inside contexts. Cutting
commutes with every choice of a context (`Sensitivity.Refines`), for the three ways to remember
calls because truncation commutes with pushing, and for an analysis that remembers nothing because
there is only one context of limit 0. So a derivation under the finer analysis becomes one under the
coarser analysis: `Derives.coarsen`.
-/

namespace ObjectFlow

/-! ## Cutting contexts -/

mutual

/-- An element of a context, as far as an analysis with limit `k` tells it. -/
def Origin.coarsen (k : Nat) : Origin → Origin
  | .site s => .site s
  | .type c => .type c
  | .object s ty container _ context =>
    .object s ty container k ((Origin.coarsenAll k context).take (k - 1))

/-- The elements of a context, as far as an analysis with limit `k` tells them. -/
def Origin.coarsenAll (k : Nat) : List Origin → List Origin
  | [] => []
  | o :: rest => o.coarsen k :: Origin.coarsenAll k rest

end

theorem Origin.coarsenAll_eq (k : Nat) (items : List Origin) :
    coarsenAll k items = items.map (coarsen k) := by
  induction items with
  | nil => rfl
  | cons o rest ih => rw [coarsenAll, ih, List.map_cons]

namespace History

/-- The context of a method cut to its newest `k` elements. -/
def coarsen (k : Nat) (h : History) : History := .ofList k (h.items.map (Origin.coarsen k))

/-- A heap context cut to its newest `k - 1` elements. -/
def coarsenHeap (k : Nat) (h : History) : History :=
  .ofList k ((h.items.map (Origin.coarsen k)).take (k - 1))

theorem items_coarsenHeap (k : Nat) (h : History) :
    (h.coarsenHeap k).items = (h.items.map (Origin.coarsen k)).take (k - 1) := by
  rw [coarsenHeap, Recent.items_ofList, List.take_take]
  congr 1
  omega

/-- There is only one context that remembers nothing. -/
theorem eq_of_limit_zero {h h' : History} (hl : h.limit = 0) (hl' : h'.limit = 0) : h = h' := by
  have nil : ∀ {h : History}, h.limit = 0 → h.items = [] := fun {h} hl =>
    List.eq_nil_of_length_eq_zero (Nat.le_zero.1 (hl ▸ h.length_le))
  exact Recent.ext (hl.trans hl'.symm) ((nil hl).trans (nil hl').symm)

theorem coarsen_empty (k n : Nat) : coarsen k (.empty n) = .empty k := by
  rw [coarsen, Recent.items_empty]
  rfl

/-- Cutting commutes with pushing. -/
theorem coarsen_push {k : Nat} {h : History} (hk : k ≤ h.limit) (x : Origin) :
    coarsen k (h.push x) = (h.coarsen k).push (x.coarsen k) := by
  refine Recent.ext rfl ?_
  rw [Recent.items_push, coarsen, coarsen, Recent.items_ofList, Recent.items_ofList,
    Recent.items_push, List.map_take, List.take_take, List.map_cons, Nat.min_eq_left hk]
  cases k with
  | zero => rfl
  | succ k =>
    rw [Recent.limit_ofList, List.take_succ_cons, List.take_succ_cons, List.take_take,
      Nat.min_eq_left (Nat.le_succ k)]

/-- What is pushed to a cut heap context is what is pushed to the whole one, cut as the context of a
method. -/
theorem coarsen_push_heap {k : Nat} {h : History} (hk : k ≤ h.limit) (x : Origin) :
    coarsen k (h.push x) = (h.coarsenHeap k).push (x.coarsen k) := by
  refine Recent.ext rfl ?_
  rw [Recent.items_push, coarsen, Recent.items_ofList, Recent.items_push, items_coarsenHeap,
    List.map_take, List.take_take, List.map_cons, Nat.min_eq_left hk]
  cases k with
  | zero => rfl
  | succ k =>
    show _ = (x.coarsen (k + 1) :: _).take (k + 1)
    rw [List.take_succ_cons, List.take_succ_cons, List.take_take]
    congr 2
    omega

/-- Choosing a heap context commutes with cutting. -/
theorem coarsenHeap_newest {k : Nat} {h : History} (hk : k ≤ h.limit) :
    coarsenHeap k (h.newest (h.limit - 1)) = (h.coarsen k).newest ((h.coarsen k).limit - 1) := by
  refine Recent.ext rfl ?_
  show (coarsenHeap k (h.newest (h.limit - 1))).items = ((h.coarsen k).newest (k - 1)).items
  rw [items_coarsenHeap, Recent.items_newest, Recent.items_newest, coarsen, Recent.items_ofList,
    List.map_take, List.take_take, List.take_take]
  congr 1
  omega

/-- A heap context is cut like the context of the method that it was chosen from, unless nothing is
cut. -/
theorem coarsen_newest {k : Nat} {h : History} (hk : k ≤ h.limit - 1) :
    coarsen k (h.newest (h.limit - 1)) = h.coarsen k := by
  refine Recent.ext rfl ?_
  rw [coarsen, coarsen, Recent.items_ofList, Recent.items_ofList, Recent.items_newest,
    List.map_take, List.take_take, Nat.min_eq_left hk]

end History

/-- An object, as far as an analysis with limit `k` tells it. -/
def ObjectOrigin.coarsen (k : Nat) (o : ObjectOrigin) : ObjectOrigin :=
  ⟨o.site, o.ty, o.container, o.context.coarsenHeap k⟩

theorem ObjectOrigin.origin_coarsen (k : Nat) (o : ObjectOrigin) :
    (o.coarsen k).origin = o.origin.coarsen k := by
  rw [origin, origin, Origin.coarsen, Origin.coarsenAll_eq]
  show Origin.object o.site o.ty o.container k (o.context.coarsenHeap k).items = _
  rw [History.items_coarsenHeap]

/-- A pointer, as far as an analysis with limit `k` tells it. -/
def Place.coarsen (k : Nat) : Place → Place
  | .var c v => .var (c.coarsen k) v
  | .instanceField o f => .instanceField (o.coarsen k) f
  | .staticField f => .staticField f
  | .elements o => .elements (o.coarsen k)

/-! ## Cutting commutes with choosing contexts -/

/-- The finer sensitivity chooses contexts that, when cut, are those that the coarser one chooses
from cut contexts. -/
structure Sensitivity.Refines (fine coarse : Sensitivity) : Prop where
  start : fine.startHistory.coarsen coarse.limit = coarse.startHistory
  afterStaticCall : ∀ {c : History} {site}, c.limit = fine.limit →
    (fine.historyAfterStaticCall c site).coarsen coarse.limit =
      coarse.historyAfterStaticCall (c.coarsen coarse.limit) site
  afterCall : ∀ {c : History} {site} {o : ObjectOrigin}, c.limit = fine.limit →
    o.context.limit = fine.limit →
    (fine.historyAfterCall c site o).coarsen coarse.limit =
      coarse.historyAfterCall (c.coarsen coarse.limit) site (o.coarsen coarse.limit)
  heap : ∀ {c : History}, c.limit = fine.limit →
    (fine.heapHistory c).coarsenHeap coarse.limit = coarse.heapHistory (c.coarsen coarse.limit)
  /-- A heap context is cut like the context of a method, or as a whole. -/
  heapContext : ∀ {c : History}, c.limit = fine.limit →
    (fine.heapHistory c).coarsen coarse.limit = c.coarsen coarse.limit ∨
    (fine.heapHistory c).coarsen coarse.limit = (fine.heapHistory c).coarsenHeap coarse.limit

namespace Sensitivity

/-! A sensitivity works on contexts of its own limit. -/

theorem limit_historyAfterStaticCall (how : Sensitivity) {c : History} (hc : c.limit = how.limit)
    (site : StmtId) : (how.historyAfterStaticCall c site).limit = how.limit := by
  cases how with
  | insensitive => rfl
  | callSite n => exact hc
  | object n => exact hc
  | type n => exact hc

theorem limit_historyAfterCall (how : Sensitivity) {c : History} (hc : c.limit = how.limit)
    {o : ObjectOrigin} (ho : o.context.limit = how.limit) (site : StmtId) :
    (how.historyAfterCall c site o).limit = how.limit := by
  cases how with
  | insensitive => rfl
  | callSite n => exact hc
  | object n => exact ho
  | type n => exact ho

theorem limit_heapHistory (how : Sensitivity) {c : History} (hc : c.limit = how.limit) :
    (how.heapHistory c).limit = how.limit := by
  cases how with
  | insensitive => rfl
  | callSite n => exact hc
  | object n => exact hc
  | type n => exact hc

/-- An analysis that remembers nothing is coarser than any other. -/
theorem refines_of_limit_zero (fine : Sensitivity) {coarse : Sensitivity}
    (h : coarse.limit = 0) : fine.Refines coarse := by
  have cut : ∀ {c : History}, (c.coarsen coarse.limit).limit = coarse.limit := rfl
  have cutHeap : ∀ {o : ObjectOrigin}, (o.coarsen coarse.limit).context.limit = coarse.limit := rfl
  refine ⟨History.eq_of_limit_zero h h, fun _ => History.eq_of_limit_zero h ?_,
    fun _ _ => History.eq_of_limit_zero h ?_, fun _ => History.eq_of_limit_zero h ?_,
    fun _ => Or.inl (History.eq_of_limit_zero h h)⟩
  · rw [limit_historyAfterStaticCall coarse cut, h]
  · rw [limit_historyAfterCall coarse cut cutHeap, h]
  · rw [limit_heapHistory coarse cut, h]

/-- The ways to remember calls. -/
inductive Memory
  | callSite | object | type
deriving DecidableEq, Repr

/-- The sensitivity that remembers `k` calls in a given way. -/
def remembering (k : Nat) : Memory → Sensitivity
  | .callSite => .callSite k
  | .object => .object k
  | .type => .type k

theorem limit_remembering (k : Nat) (memory : Memory) : (remembering k memory).limit = k := by
  cases memory <;> rfl

theorem heapHistory_remembering (k : Nat) (memory : Memory) (c : History) :
    (remembering k memory).heapHistory c = c.newest (c.limit - 1) := by
  cases memory <;> rfl

/-- To remember more calls in the same way is to be finer. -/
theorem refines_remembering {k k' : Nat} (hk : k ≤ k') (memory : Memory) :
    (remembering k' memory).Refines (remembering k memory) := by
  refine ⟨?_, fun {c site} hc => ?_, fun {c site o} hc ho => ?_, fun {c} hc => ?_,
    fun {c} hc => ?_⟩
  · rw [startHistory, startHistory, History.coarsen_empty]
  · rw [limit_remembering] at hc ⊢
    cases memory with
    | callSite => exact History.coarsen_push (hc ▸ hk) (.site site)
    | object => rfl
    | type => rfl
  · rw [limit_remembering] at hc ho ⊢
    cases memory with
    | callSite => exact History.coarsen_push (hc ▸ hk) (.site site)
    | object =>
      show History.coarsen k (o.context.push o.origin) =
        (o.context.coarsenHeap k).push (o.coarsen k).origin
      rw [History.coarsen_push_heap (ho ▸ hk), ObjectOrigin.origin_coarsen]
    | type => exact History.coarsen_push_heap (ho ▸ hk) (.type o.container)
  · rw [limit_remembering] at hc ⊢
    rw [heapHistory_remembering, heapHistory_remembering]
    exact History.coarsenHeap_newest (hc ▸ hk)
  · rw [limit_remembering] at hc ⊢
    rw [heapHistory_remembering]
    rcases Nat.lt_or_ge k k' with hlt | hge
    · exact Or.inl (History.coarsen_newest (by omega))
    · obtain rfl : k = k' := Nat.le_antisymm hk hge
      refine Or.inr (Recent.ext rfl ?_)
      rw [History.coarsen, Recent.items_ofList, History.items_coarsenHeap, Recent.items_newest,
        List.map_take, List.take_take, List.take_take, hc]
      congr 1
      omega

end Sensitivity

namespace PointsTo

/-! ## Cutting facts -/

/-- A fact, as far as an analysis with limit `k` tells it. A context that stands alone is cut as the
context of a method; as the heap context of an object it is cut with the object. -/
def Fact.coarsen (k : Nat) : Fact → Fact
  | .context c => .context (c.coarsen k)
  | .object o => .object (o.coarsen k)
  | .pointer q => .pointer (q.coarsen k)
  | .reachable c m => .reachable (c.coarsen k) m
  | .call ⟨kind, (c, site), (d, m)⟩ => .call ⟨kind, (c.coarsen k, site), (d.coarsen k, m)⟩
  | .flow q r => .flow (q.coarsen k) (r.coarsen k)
  | .holds q o => .holds (q.coarsen k) (o.coarsen k)

/-- The contexts in a pointer have this limit. -/
def PlaceLimit (n : Nat) : Place → Prop
  | .var c _ => c.limit = n
  | .instanceField o _ | .elements o => o.context.limit = n
  | .staticField _ => True

/-- The contexts in a fact have this limit. -/
def FactLimit (n : Nat) : Fact → Prop
  | .context c | .reachable c _ => c.limit = n
  | .object o => o.context.limit = n
  | .pointer q => PlaceLimit n q
  | .call e => e.site.1.limit = n ∧ e.callee.1.limit = n
  | .flow q r => PlaceLimit n q ∧ PlaceLimit n r
  | .holds q o => PlaceLimit n q ∧ o.context.limit = n

variable {p : Program} {how fine coarse : Sensitivity}

/-- All contexts of an analysis share the limit of its sensitivity. -/
theorem Derives.limits {extra : List (Place × Place)} {f : Fact} (h : Derives p how extra f) :
    FactLimit how.limit f := by
  induction h with
  | entry => rfl
  | alloc _ _ _ ihr => exact ⟨ihr, how.limit_heapHistory ihr⟩
  | copy _ _ ihr => exact ⟨ihr, ihr⟩
  | cast _ _ ihr => exact ⟨ihr, ihr⟩
  | staticLoad _ _ ihr => exact ⟨trivial, ihr⟩
  | staticStore _ _ ihr => exact ⟨ihr, trivial⟩
  | staticCall _ _ _ _ ihr => exact ⟨ihr, how.limit_historyAfterStaticCall ihr _⟩
  | store _ _ _ ihr ihx => exact ⟨ihr, ihx.2⟩
  | load _ _ _ ihr ihx => exact ⟨ihx.2, ihr⟩
  | arrayStore _ _ _ ihr ihx => exact ⟨ihr, ihx.2⟩
  | arrayLoad _ _ _ ihr ihx => exact ⟨ihx.2, ihr⟩
  | instanceCall _ _ _ _ _ ihr ihx => exact ⟨ihr, how.limit_historyAfterCall ihr ihx.2 _⟩
  | this _ _ _ _ _ _ _ ihr ihx => exact ⟨how.limit_historyAfterCall ihr ihx.2 _, ihx.2⟩
  | callee _ ih => exact ih.2
  | argument _ _ _ _ ih => exact ih
  | result _ _ _ _ _ ih => exact ih.symm
  | propagate _ _ ihf ihh => exact ⟨ihf.2, ihh.2⟩
  | extra _ _ _ ihq ihr => exact ⟨ihq, ihr⟩
  | contextOfMethod _ ih => exact ih
  | contextOfObject _ ih => exact ih
  | objectOfHolds _ ih => exact ih.2
  | pointerOfHolds _ ih => exact ih.1
  | source _ ih => exact ih.1
  | target _ ih => exact ih.2
  | resultPointer _ _ _ ih => exact ih.1

/-- The object in a fact was allocated by a method in some context, from which its heap context was
chosen. -/
def Allocated (p : Program) (how : Sensitivity) : Fact → Prop
  | .object o | .holds _ o => ∃ c, Derives p how [] (.reachable c o.site.method) ∧
      o.context = how.heapHistory c
  | _ => True

theorem Derives.allocated {f : Fact} (h : Derives p how [] f) : Allocated p how f := by
  induction h with
  | @alloc c site lhs ty method hr _ _ _ => exact ⟨c, hr, rfl⟩
  | this _ _ _ _ _ _ _ _ ihx => exact ihx
  | propagate _ _ _ ihh => exact ihh
  | objectOfHolds _ ih => exact ih
  | extra he => cases he
  | _ => trivial

/-- A fact follows under a coarser sensitivity when it is cut. Nothing is said of contexts alone. -/
def Survives (p : Program) (coarse : Sensitivity) : Fact → Prop
  | .context _ => True
  | f => Derives p coarse [] (f.coarsen coarse.limit)

theorem Derives.survives (hle : fine.Refines coarse) {f : Fact} (h : Derives p fine [] f) :
    Survives p coarse f := by
  induction h with
  | entry =>
    show Derives p coarse [] (.reachable (fine.startHistory.coarsen coarse.limit) p.entry)
    rw [hle.start]
    exact .entry
  | @alloc c site lhs ty method hr hst hm ihr =>
    show Derives p coarse [] (.holds (.var (c.coarsen coarse.limit) lhs)
      ⟨site, ty, method.decl.owner, (fine.heapHistory c).coarsenHeap coarse.limit⟩)
    rw [hle.heap hr.limits]
    exact .alloc ihr hst hm
  | copy _ hst ihr => exact .copy ihr hst
  | cast _ hst ihr => exact .cast ihr hst
  | staticLoad _ hst ihr => exact .staticLoad ihr hst
  | staticStore _ hst ihr => exact .staticStore ihr hst
  | @staticCall c site call m hr hst hk hm ihr =>
    show Derives p coarse [] (.call ⟨.static, (c.coarsen coarse.limit, site),
      ((fine.historyAfterStaticCall c site).coarsen coarse.limit, m)⟩)
    rw [hle.afterStaticCall hr.limits]
    exact .staticCall ihr hst hk hm
  | store _ hst _ ihr ihx => exact .store ihr hst ihx
  | load _ hst _ ihr ihx => exact .load ihr hst ihx
  | arrayStore _ hst _ ihr ihx => exact .arrayStore ihr hst ihx
  | arrayLoad _ hst _ ihr ihx => exact .arrayLoad ihr hst ihx
  | @instanceCall c site call x o m hr hst hx ho hm ihr ihx =>
    show Derives p coarse [] (.call ⟨call.kind, (c.coarsen coarse.limit, site),
      ((fine.historyAfterCall c site o).coarsen coarse.limit, m)⟩)
    rw [hle.afterCall hr.limits ho.limits.2]
    exact .instanceCall ihr hst hx ihx hm
  | @this c site call x o m method this hr hst hx ho hm hmethod hthis ihr ihx =>
    show Derives p coarse [] (.holds
      (.var ((fine.historyAfterCall c site o).coarsen coarse.limit) this)
      (o.coarsen coarse.limit))
    rw [hle.afterCall hr.limits ho.limits.2]
    exact .this ihr hst hx ihx hm hmethod hthis
  | callee _ ih => exact Derives.callee ih
  | argument _ hst hm hap ih => exact Derives.argument ih hst hm hap
  | result _ hst hm hl hv ih => exact Derives.result ih hst hm hl hv
  | propagate _ _ ihf ihh => exact Derives.propagate ihf ihh
  | extra he => cases he
  | contextOfMethod _ _ => trivial
  | contextOfObject _ _ => trivial
  | objectOfHolds _ ih => exact Derives.objectOfHolds ih
  | pointerOfHolds _ ih => exact Derives.pointerOfHolds ih
  | source _ ih => exact Derives.source ih
  | target _ ih => exact Derives.target ih
  | resultPointer _ hst hl ih => exact Derives.resultPointer ih hst hl

/-- What follows under the finer sensitivity follows, when cut, under the coarser one. -/
theorem Derives.coarsen (hle : fine.Refines coarse) {f : Fact} (h : Derives p fine [] f) :
    Derives p coarse [] (f.coarsen coarse.limit) := by
  cases f with
  | context c =>
    cases h with
    | contextOfMethod hr => exact Derives.contextOfMethod (hr.survives hle)
    | @contextOfObject o ho =>
      -- A heap context of the finer analysis may be longer than those of the coarser one. Then it
      -- is cut like the context of the method that allocated the object.
      obtain ⟨d, hr, hctx⟩ := ho.allocated
      have hheap : Derives p coarse [] (.context (o.context.coarsenHeap coarse.limit)) :=
        Derives.contextOfObject (ho.survives hle)
      show Derives p coarse [] (.context (o.context.coarsen coarse.limit))
      rw [hctx] at hheap ⊢
      rcases hle.heapContext hr.limits with heq | heq
      · rw [heq]
        exact Derives.contextOfMethod (hr.survives hle)
      · rw [heq]
        exact hheap
  | _ => exact h.survives hle

/-! An analysis that remembers nothing has no contexts to cut. -/

theorem coarsen_object_zero {o : ObjectOrigin} (h : o.context.limit = 0) : o.coarsen 0 = o :=
  congrArg (ObjectOrigin.mk o.site o.ty o.container) (History.eq_of_limit_zero rfl h)

theorem coarsen_place_zero {q : Place} (h : PlaceLimit 0 q) : q.coarsen 0 = q := by
  cases q with
  | var c v => exact congrArg (Place.var · v) (History.eq_of_limit_zero rfl h)
  | instanceField o f => exact congrArg (Place.instanceField · f) (coarsen_object_zero h)
  | staticField f => rfl
  | elements o => exact congrArg Place.elements (coarsen_object_zero h)

theorem coarsen_fact_zero {f : Fact} (h : FactLimit 0 f) : f.coarsen 0 = f := by
  cases f with
  | context c => exact congrArg Fact.context (History.eq_of_limit_zero rfl h)
  | object o => exact congrArg Fact.object (coarsen_object_zero h)
  | pointer q => exact congrArg Fact.pointer (coarsen_place_zero h)
  | reachable c m => exact congrArg (Fact.reachable · m) (History.eq_of_limit_zero rfl h)
  | call e =>
    obtain ⟨kind, ⟨c, site⟩, ⟨d, m⟩⟩ := e
    have hc : c.coarsen 0 = c := History.eq_of_limit_zero rfl h.1
    have hd : d.coarsen 0 = d := History.eq_of_limit_zero rfl h.2
    rw [Fact.coarsen, hc, hd]
  | flow q r => rw [Fact.coarsen, coarsen_place_zero h.1, coarsen_place_zero h.2]
  | holds q o => rw [Fact.coarsen, coarsen_place_zero h.1, coarsen_object_zero h.2]

theorem derives_iff_of_limit_zero (h : fine.limit = 0) (h' : coarse.limit = 0) {f : Fact} :
    Derives p fine [] f ↔ Derives p coarse [] f := by
  have key : ∀ {how how' : Sensitivity}, how.limit = 0 → how'.limit = 0 →
      Derives p how [] f → Derives p how' [] f := by
    intro how how' h h' hd
    have hcut := hd.coarsen (Sensitivity.refines_of_limit_zero how h')
    have hlimit := hd.limits
    rw [h] at hlimit
    rwa [h', coarsen_fact_zero hlimit] at hcut
  exact ⟨key h h', key h' h⟩

/-- A variable may point to an object that a statement allocates. -/
def Result.MayHold (r : Result) (v : VarId) (site : StmtId) : Prop :=
  ∃ o ∈ r.pointsTo v, ∃ obj, r.arena.object o = .ok obj ∧ obj.site = site

namespace State

variable {s t u : State}

/-! ## Runs -/

section Coarser

variable (hp : p.Accepted) (hle : fine.Refines coarse) (hs : Reaches p fine noExtra s)
  (ht : Reaches p coarse noExtra t) (hend : t.pending.isEmpty = true)
include hp hle hs ht hend

theorem shows_coarsen {r : Finding} (hr : s.Finds r) :
    ∃ f, Resolves s.arena r f ∧ t.Shows (f.coarsen coarse.limit) := by
  obtain ⟨f, hres, hd⟩ := grounded_of_noExtra hp hs _ hr
  exact ⟨f, hres, (shows_iff_derives_of_isEmpty hp ht hend).2 (hd.coarsen hle)⟩

theorem mayHold_of_coarser {metrics : Bool} {v : VarId} {site : StmtId}
    (h : (Result.ofState s metrics).MayHold v site) :
    (Result.ofState t metrics).MayHold v site := by
  obtain ⟨o, ho, obj, hobj, hsite⟩ := h
  obtain ⟨c, i, hi, hio⟩ := Result.mem_pointsTo.1 ho
  obtain ⟨f, hres, hshow⟩ := shows_coarsen hp hle hs ht hend
    (show s.Finds (.holds i o) from Or.inl hio)
  cases hres with
  | holds hq hx =>
    obtain ⟨obj', hobj', -, hsite', -⟩ := Arena.spells_iff.1 hx
    rw [show s.arena.object o = .ok obj from hobj] at hobj'
    cases hobj'
    cases hq.names hi with
    | var _ hch =>
      obtain ⟨j, o', ⟨y, hy, hn⟩, hx', hknows⟩ := shows_holds.1 hshow
      cases hn with
      | var _ hch' =>
        rw [knows_iff_of_isEmpty (balanced_of_reaches hp ht) hend] at hknows
        obtain ⟨obj', hobj', -, hsite'', -⟩ := Arena.spells_iff.1 hx'
        exact ⟨o', Result.mem_pointsTo.2 ⟨_, j, hy, hknows⟩, obj', hobj',
          hsite''.trans (hsite'.symm.trans hsite)⟩

theorem mem_reachable_of_coarser {metrics : Bool} {m : MethodId}
    (h : m ∈ (Result.ofState s metrics).plainCalls.reachable.toList) :
    m ∈ (Result.ofState t metrics).plainCalls.reachable.toList := by
  obtain ⟨c, hc⟩ := Result.mem_reachable.1 h
  obtain ⟨f, hres, hshow⟩ := shows_coarsen hp hle hs ht hend
    (show s.Finds (.reachable (c, m)) from hc)
  cases hres with
  | reachable _ hch =>
    obtain ⟨d, -, hd⟩ := shows_reachable.1 hshow
    exact Result.mem_reachable.2 ⟨d, hd⟩

theorem mem_edges_of_coarser {metrics : Bool} {e : CallEdge StmtId MethodId}
    (h : e ∈ (Result.ofState s metrics).plainCalls.edges.toList) :
    e ∈ (Result.ofState t metrics).plainCalls.edges.toList := by
  obtain ⟨c, d, he⟩ := Result.mem_edges.1 h
  obtain ⟨f, hres, hshow⟩ := shows_coarsen hp hle hs ht hend
    (show s.Finds (.call ⟨e.kind, (c, e.site), (d, e.callee)⟩) from he)
  cases hres with
  | call kind site m hc hd =>
    obtain ⟨c', d', -, -, he'⟩ := shows_call.1 hshow
    exact Result.mem_edges.2 ⟨c', d', he'⟩

end Coarser

/-- **More context adds nothing.** Let one analysis remember `k'` calls and another one, in the same
way, `k ≤ k'`. Whatever the first has found at any time is found by the second once it has ended, if
it is cut to `k` elements. So a variable points to the sites, and the plain call graph has the
methods and calls, that the second analysis finds. To remember no calls is to be insensitive. -/
theorem more_context_adds_nothing (hp : p.Accepted) (memory : Sensitivity.Memory) {k k' : Nat}
    (hk : k ≤ k') (hs : Reaches p (.remembering k' memory) noExtra s)
    (ht : Reaches p (.remembering k memory) noExtra t) (hend : t.pending.isEmpty = true) :
    (∀ r, s.Finds r → ∃ f, Resolves s.arena r f ∧ t.Shows (f.coarsen k)) ∧
    (∀ metrics v site, (Result.ofState s metrics).MayHold v site →
      (Result.ofState t metrics).MayHold v site) ∧
    (∀ metrics m, m ∈ (Result.ofState s metrics).plainCalls.reachable.toList →
      m ∈ (Result.ofState t metrics).plainCalls.reachable.toList) ∧
    (∀ metrics e, e ∈ (Result.ofState s metrics).plainCalls.edges.toList →
      e ∈ (Result.ofState t metrics).plainCalls.edges.toList) ∧
    (k = 0 → ∀ u, Reaches p .insensitive noExtra u → u.pending.isEmpty = true →
      ∀ f, t.Shows f ↔ u.Shows f) := by
  have hle := Sensitivity.refines_remembering hk memory
  refine ⟨fun r hr => ?_, fun _ _ _ => mayHold_of_coarser hp hle hs ht hend,
    fun _ _ => mem_reachable_of_coarser hp hle hs ht hend,
    fun _ _ => mem_edges_of_coarser hp hle hs ht hend, fun hzero u hu hend' f => ?_⟩
  · have h := shows_coarsen hp hle hs ht hend hr
    rwa [Sensitivity.limit_remembering] at h
  · rw [shows_iff_derives_of_isEmpty hp ht hend, shows_iff_derives_of_isEmpty hp hu hend']
    exact derives_iff_of_limit_zero ((Sensitivity.limit_remembering k memory).trans hzero) rfl

/-- A run that remembers two receivers and has not ended, against one that remembers one. -/
theorem boxes_more_context :
    ∃ s t, Reaches (.index boxes) (.object 2) noExtra s ∧ s.pending.isEmpty = false ∧
      Reaches (.index boxes) (.object 1) noExtra t ∧ t.pending.isEmpty = true ∧
      (∀ r, s.Finds r → ∃ f, Resolves s.arena r f ∧ t.Shows (f.coarsen 1)) ∧
      ∀ v site, (Result.ofState s false).MayHold v site →
        (Result.ofState t false).MayHold v site := by
  obtain ⟨s₀, hs₀, hrun⟩ := exists_ok_of_any
    ((initial (.object 2) .lifo).start (.index boxes) (.object 2) 100)
    (fun s => (State.run (.index boxes) (.object 2) 100 2 s).toOption.any fun r =>
      !r.2.pending.isEmpty) (by decide +kernel)
  obtain ⟨⟨n, s⟩, hs, hwaits⟩ := exists_ok_of_any _ _ hrun
  obtain ⟨t, ht, -⟩ := exists_ok_of_any
    ((initial (.object 1) .fifo).solve (.index boxes) (.object 1) 100) (fun _ => true)
    (by decide +kernel)
  obtain ⟨hreaches, hend⟩ := reaches_of_solve ht
  have hfine : Reaches (.index boxes) (.object 2) noExtra s := Reaches.run (.start hs₀) hs
  obtain ⟨hfacts, hsites, -⟩ :=
    more_context_adds_nothing boxes_accepted .object (show 1 ≤ 2 by decide) hfine hreaches hend
  exact ⟨s, t, hfine, by simpa using hwaits, hreaches, hend, hfacts, hsites false⟩

end State

end PointsTo

end ObjectFlow
