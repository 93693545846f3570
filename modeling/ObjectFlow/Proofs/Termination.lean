import ObjectFlow.Proofs.Coarsening
import ObjectFlow.Proofs.Draining

/-!
# The analysis comes to an end

A run creates contexts, objects and pointers as it goes. Unless contexts remember objects that
remember objects themselves (`Sensitivity.Shallow`), only finitely many can ever be created:
contexts are short sequences of statements, of classes, or of objects that remember nothing, and
everything else is told by these and by what the program declares. So finitely many facts can be
derived (`finite_derives`), and the size of that set bounds all metrics of a run
(`exists_count_le`).

A step makes a fact known, or leaves fewer pointers waiting. No more pointers can wait than there
are, so a step that makes a fact known is worth more than all pointers that can wait (`rank`).
-/

namespace ObjectFlow

/-- Contexts do not remember objects that remember objects themselves. -/
def Sensitivity.Shallow : Sensitivity → Prop
  | .object k => k ≤ 1
  | .insensitive | .callSite _ | .type _ => True

namespace PointsTo

variable {p : Program} {how : Sensitivity}

/-! ## What there is in a program -/

theorem finite_graph {α β : Type} {f : α → Except Fault β} (h : {a | ∃ b, f a = .ok b}.Finite) :
    {x : α × β | f x.1 = .ok x.2}.Finite := by
  refine Set.Finite.of_finite_image (f := Prod.fst) (h.subset ?_) ?_
  · rintro _ ⟨⟨a, b⟩, hab, rfl⟩
    exact ⟨b, hab⟩
  · rintro ⟨a, b⟩ hb ⟨a', b'⟩ hb' rfl
    have hb : f a = .ok b := hb
    have hb' : f a = .ok b' := hb'
    rw [hb] at hb'
    cases hb'
    rfl

/-- The types of the objects that a program allocates. -/
def allocatedTypes (p : Program) : Set Ty := {ty | ∃ site lhs, p.stmt site = .ok (.alloc lhs ty)}

/-- The classes that declare methods. -/
def owners (p : Program) : Set ClassId :=
  {c | ∃ m method, p.method m = .ok method ∧ method.decl.owner = c}

theorem finite_allocatedTypes (p : Program) : (allocatedTypes p).Finite := by
  have hinj : Function.Injective fun x : VarId × Ty => Stmt.alloc x.1 x.2 := by
    rintro ⟨v, ty⟩ ⟨v', ty'⟩ h
    cases h
    rfl
  refine (((finite_graph p.finite_sites).image Prod.snd).preimage hinj.injOn |>.image
    Prod.snd).subset ?_
  rintro ty ⟨site, lhs, hst⟩
  exact ⟨(lhs, ty), ⟨(site, .alloc lhs ty), hst, rfl⟩, rfl⟩

theorem finite_owners (p : Program) : (owners p).Finite := by
  refine ((finite_graph p.finite_methods).image fun x => x.2.decl.owner).subset ?_
  rintro c ⟨m, method, hm, hc⟩
  exact ⟨(m, method), hm, hc⟩

/-! ## What an analysis can create -/

/-- What a context may remember: a statement, a class, or an object that remembers nothing. -/
inductive Memorable (p : Program) (how : Sensitivity) : Origin → Prop
  | site {site st} : p.stmt site = .ok st → Memorable p how (.site site)
  | type {c} : c ∈ owners p → Memorable p how (.type c)
  | object {site ty c st} : p.stmt site = .ok st → ty ∈ allocatedTypes p → c ∈ owners p →
      Memorable p how (.object site ty c how.limit [])

/-- A context that an analysis may create. -/
def Creatable (p : Program) (how : Sensitivity) (c : History) : Prop :=
  c.limit = how.limit ∧ ∀ x ∈ c.items, Memorable p how x

theorem Creatable.within {c : History} (hc : Creatable p how c) :
    c.Within {x | Memorable p how x} how.limit :=
  ⟨hc.1.le, hc.2⟩

/-- An object comes from an allocation in the program. -/
structure Declared (p : Program) (o : ObjectOrigin) : Prop where
  site : ∃ st, p.stmt o.site = .ok st
  ty : o.ty ∈ allocatedTypes p
  container : o.container ∈ owners p

/-- An object that an analysis may create. Where contexts remember objects, it remembers nothing. -/
structure Allocatable (p : Program) (how : Sensitivity) (o : ObjectOrigin) : Prop where
  site : ∃ st, p.stmt o.site = .ok st
  ty : o.ty ∈ allocatedTypes p
  container : o.container ∈ owners p
  context : Creatable p how o.context
  flat : ∀ k, how = .object k → o.context.items = []

theorem Allocatable.declared {o : ObjectOrigin} (h : Allocatable p how o) : Declared p o :=
  ⟨h.site, h.ty, h.container⟩

theorem declared_alloc {site : StmtId} {lhs : VarId} {ty : Ty} {method : Method} {c : History}
    (hst : p.stmt site = .ok (.alloc lhs ty)) (hm : p.method site.method = .ok method) :
    Declared p ⟨site, ty, method.decl.owner, c⟩ :=
  ⟨⟨_, hst⟩, ⟨site, lhs, hst⟩, ⟨site.method, method, hm, rfl⟩⟩

section Finite

variable (p : Program) (how : Sensitivity)

theorem finite_memorable : {x | Memorable p how x}.Finite := by
  have hobjects := (p.finite_sites.prod (finite_allocatedTypes p)).prod (finite_owners p)
  refine ((p.finite_sites.image Origin.site).union (((finite_owners p).image Origin.type).union
    (hobjects.image fun x => Origin.object x.1.1 x.1.2 x.2 how.limit []))).subset ?_
  intro x hx
  cases hx with
  | site hst => exact Or.inl ⟨_, ⟨_, hst⟩, rfl⟩
  | type hc => exact Or.inr (Or.inl ⟨_, hc, rfl⟩)
  | object hst hty hc => exact Or.inr (Or.inr ⟨((_, _), _), ⟨⟨⟨_, hst⟩, hty⟩, hc⟩, rfl⟩)

theorem finite_creatable : {c | Creatable p how c}.Finite :=
  (Recent.finite_within (finite_memorable p how) how.limit).subset fun _ hc => hc.within

theorem finite_declared {contexts : Set History} (h : contexts.Finite) :
    {o | Declared p o ∧ o.context ∈ contexts}.Finite := by
  have hall := (p.finite_sites.prod (finite_allocatedTypes p)).prod ((finite_owners p).prod h)
  refine (hall.image fun x => ⟨x.1.1, x.1.2, x.2.1, x.2.2⟩).subset ?_
  rintro o ⟨ho, hc⟩
  exact ⟨((o.site, o.ty), o.container, o.context), ⟨⟨ho.site, ho.ty⟩, ho.container, hc⟩, rfl⟩

theorem finite_allocatable : {o | Allocatable p how o}.Finite :=
  (finite_declared p (finite_creatable p how)).subset fun _ ho => ⟨ho.declared, ho.context⟩

end Finite

/-! Contexts are chosen among those that may be created. -/

theorem creatable_start : Creatable p how how.startHistory :=
  ⟨rfl, by simp [Sensitivity.startHistory]⟩

theorem Creatable.push {c : History} (hc : Creatable p how c) {x : Origin}
    (hx : Memorable p how x) : Creatable p how (c.push x) :=
  ⟨hc.1, (hc.within.push hx).2⟩

theorem Creatable.newest {c : History} (hc : Creatable p how c) (k : Nat) :
    Creatable p how (c.newest k) :=
  ⟨hc.1, (hc.within.newest k).2⟩

theorem Allocatable.memorable {k : Nat} {o : ObjectOrigin} (ho : Allocatable p (.object k) o) :
    Memorable p (.object k) o.origin := by
  obtain ⟨st, hst⟩ := ho.site
  unfold ObjectOrigin.origin
  rw [ho.flat k rfl, ho.context.1]
  exact .object hst ho.ty ho.container

theorem creatable_afterStaticCall {c : History} (hc : Creatable p how c) {site : StmtId}
    {st : Stmt} (hst : p.stmt site = .ok st) :
    Creatable p how (how.historyAfterStaticCall c site) := by
  cases how with
  | insensitive => exact creatable_start
  | callSite k => exact hc.push (.site hst)
  | object k => exact hc
  | type k => exact hc

theorem creatable_afterCall {c : History} (hc : Creatable p how c) {site : StmtId} {st : Stmt}
    (hst : p.stmt site = .ok st) {o : ObjectOrigin} (ho : Allocatable p how o) :
    Creatable p how (how.historyAfterCall c site o) := by
  cases how with
  | insensitive => exact creatable_start
  | callSite k => exact hc.push (.site hst)
  | object k => exact ho.context.push ho.memorable
  | type k => exact ho.context.push (.type ho.container)

theorem creatable_heapHistory {c : History} (hc : Creatable p how c) :
    Creatable p how (how.heapHistory c) := by
  cases how with
  | insensitive => exact creatable_start
  | callSite k => exact hc.newest _
  | object k => exact hc.newest _
  | type k => exact hc.newest _

/-- Where contexts remember one object at most, a heap context remembers none. -/
theorem items_heapHistory {k : Nat} (hk : k ≤ 1) {c : History} (hc : c.limit = k) :
    ((Sensitivity.object k).heapHistory c).items = [] := by
  show (c.newest (c.limit - 1)).items = []
  rw [Recent.items_newest, hc, Nat.sub_eq_zero_of_le hk, List.take_zero]

theorem allocatable_alloc (hhow : how.Shallow) {c : History} (hc : Creatable p how c)
    {site : StmtId} {lhs : VarId} {ty : Ty} (hst : p.stmt site = .ok (.alloc lhs ty))
    {method : Method} (hm : p.method site.method = .ok method) :
    Allocatable p how ⟨site, ty, method.decl.owner, how.heapHistory c⟩ where
  site := ⟨_, hst⟩
  ty := ⟨site, lhs, hst⟩
  container := ⟨site.method, method, hm, rfl⟩
  context := creatable_heapHistory hc
  flat k hk := by
    subst hk
    exact items_heapHistory hhow hc.1

/-! ## What can be derived -/

/-- A place that an analysis may create. -/
def Placeable (p : Program) (how : Sensitivity) : Place → Prop
  | .var c _ => Creatable p how c
  | .instanceField o f => Allocatable p how o ∧ f.index < p.model.fields.size
  | .staticField f => f.index < p.model.fields.size
  | .elements o => Allocatable p how o

/-- A fact speaks only of what an analysis may create. -/
def Modest (p : Program) (how : Sensitivity) : Fact → Prop
  | .context c | .reachable c _ => Creatable p how c
  | .object o => Allocatable p how o
  | .pointer q => Placeable p how q
  | .call e => Creatable p how e.site.1 ∧ Creatable p how e.callee.1
  | .flow q r => Placeable p how q ∧ Placeable p how r
  | .holds q o => Placeable p how q ∧ Allocatable p how o

theorem Derives.modest (hp : p.Accepted) (hhow : how.Shallow) {f : Fact}
    (h : Derives p how [] f) : Modest p how f := by
  induction h with
  | entry => exact creatable_start
  | alloc _ hst hm ihr => exact ⟨ihr, allocatable_alloc hhow ihr hst hm⟩
  | copy _ _ ihr => exact ⟨ihr, ihr⟩
  | cast _ _ ihr => exact ⟨ihr, ihr⟩
  | staticLoad _ hst ihr => exact ⟨Program.field_lt_of_load hp hst, ihr⟩
  | staticStore _ hst ihr => exact ⟨ihr, Program.field_lt_of_store hp hst⟩
  | staticCall _ hst _ _ ihr => exact ⟨ihr, creatable_afterStaticCall ihr hst⟩
  | store _ hst _ ihr ihx => exact ⟨ihr, ihx.2, Program.field_lt_of_store hp hst⟩
  | load _ hst _ ihr ihx => exact ⟨⟨ihx.2, Program.field_lt_of_load hp hst⟩, ihr⟩
  | arrayStore _ _ _ ihr ihx => exact ⟨ihr, ihx.2⟩
  | arrayLoad _ _ _ ihr ihx => exact ⟨ihx.2, ihr⟩
  | instanceCall _ hst _ _ _ ihr ihx => exact ⟨ihr, creatable_afterCall ihr hst ihx.2⟩
  | this _ hst _ _ _ _ _ ihr ihx => exact ⟨creatable_afterCall ihr hst ihx.2, ihx.2⟩
  | callee _ ih => exact ih.2
  | argument _ _ _ _ ih => exact ih
  | result _ _ _ _ _ ih => exact ih.symm
  | propagate _ _ ihf ihh => exact ⟨ihf.2, ihh.2⟩
  | extra he => cases he
  | contextOfMethod _ ih => exact ih
  | contextOfObject _ ih => exact ih.context
  | objectOfHolds _ ih => exact ih.2
  | pointerOfHolds _ ih => exact ih.1
  | source _ ih => exact ih.1
  | target _ ih => exact ih.2
  | resultPointer _ _ _ ih => exact ih.1

/-- A place belongs to an object that is in use and to a field that is declared. -/
def InUse (p : Program) (how : Sensitivity) : Place → Prop
  | .var .. => True
  | .instanceField o f => Derives p how [] (.object o) ∧ f.index < p.model.fields.size
  | .staticField f => f.index < p.model.fields.size
  | .elements o => Derives p how [] (.object o)

/-- The places that a fact speaks of are in use. -/
def PlacesInUse (p : Program) (how : Sensitivity) : Fact → Prop
  | .pointer q | .holds q _ => InUse p how q
  | .flow q r => InUse p how q ∧ InUse p how r
  | .context _ | .object _ | .reachable .. | .call _ => True

theorem Derives.placesInUse (hp : p.Accepted) {f : Fact} (h : Derives p how [] f) :
    PlacesInUse p how f := by
  induction h with
  | staticLoad _ hst => exact ⟨Program.field_lt_of_load hp hst, trivial⟩
  | staticStore _ hst => exact ⟨trivial, Program.field_lt_of_store hp hst⟩
  | store _ hst ho => exact ⟨trivial, ho.objectOfHolds, Program.field_lt_of_store hp hst⟩
  | load _ hst ho => exact ⟨⟨ho.objectOfHolds, Program.field_lt_of_load hp hst⟩, trivial⟩
  | arrayStore _ _ ho => exact ⟨trivial, ho.objectOfHolds⟩
  | arrayLoad _ _ ho => exact ⟨ho.objectOfHolds, trivial⟩
  | copy | cast | argument | result => exact ⟨trivial, trivial⟩
  | propagate _ _ ihf => exact ihf.2
  | extra he => cases he
  | pointerOfHolds _ ih => exact ih
  | source _ ih => exact ih.1
  | target _ ih => exact ih.2
  | entry | alloc | staticCall | instanceCall | this | callee | contextOfMethod | contextOfObject
  | objectOfHolds | resultPointer => trivial

section Finite

variable (hcontexts : {c | Derives p how [] (.context c)}.Finite)
  (hobjects : {o | Derives p how [] (.object o)}.Finite)
include hcontexts hobjects

theorem finite_placesInUse : {q | InUse p how q ∧ InScope p how [] q}.Finite := by
  have hvars := Id.finite_lt .vars p.model.vars.size
  have hfields := Id.finite_lt .fields p.model.fields.size
  refine ((Set.Finite.image2 Place.var hcontexts hvars).union
    ((Set.Finite.image2 Place.instanceField hobjects hfields).union
      ((hfields.image Place.staticField).union (hobjects.image Place.elements)))).subset ?_
  rintro q ⟨hq, hscope⟩
  cases q with
  | var c v =>
    obtain ⟨m, ⟨d, hd, -⟩, hr⟩ := hscope
    have hv := (Array.getElem?_eq_some_iff.1 (orUnknown_eq_ok.1 hd)).1
    exact Or.inl ⟨c, hr.contextOfMethod, v, hv, rfl⟩
  | instanceField o f => exact Or.inr (Or.inl ⟨o, hq.1, f, hq.2, rfl⟩)
  | staticField f => exact Or.inr (Or.inr (Or.inl ⟨f, hq, rfl⟩))
  | elements o => exact Or.inr (Or.inr (Or.inr ⟨o, hq, rfl⟩))

/-- Finitely many facts can be derived where finitely many contexts and objects are in use. -/
theorem finite_derives_of_finite (hp : p.Accepted) : {f | Derives p how [] f}.Finite := by
  have hplaces := finite_placesInUse hcontexts hobjects
  have hcalls := CallEdge.finite_between (hcontexts.prod p.finite_sites)
    (hcontexts.prod p.finite_methods)
  refine ((hcontexts.image Fact.context).union ((hobjects.image Fact.object).union
    ((hplaces.image Fact.pointer).union
      ((Set.Finite.image2 Fact.reachable hcontexts p.finite_methods).union
        ((hcalls.image Fact.call).union ((Set.Finite.image2 Fact.flow hplaces hplaces).union
          (Set.Finite.image2 Fact.holds hplaces hobjects))))))).subset ?_
  intro f hf
  have hplaced := hf.placesInUse hp
  have hsensible := hf.sensible hp
  cases f with
  | context c => exact Or.inl ⟨c, hf, rfl⟩
  | object o => exact Or.inr (Or.inl ⟨o, hf, rfl⟩)
  | pointer q => exact Or.inr (Or.inr (Or.inl ⟨q, ⟨hplaced, hsensible⟩, rfl⟩))
  | reachable c m =>
    exact Or.inr (Or.inr (Or.inr (Or.inl ⟨c, hf.contextOfMethod, m, hsensible, rfl⟩)))
  | call e =>
    obtain ⟨⟨call, hst⟩, hm, hr⟩ := hsensible
    exact Or.inr (Or.inr (Or.inr (Or.inr (Or.inl
      ⟨e, ⟨⟨hr.contextOfMethod, _, hst⟩, hf.callee.contextOfMethod, hm⟩, rfl⟩))))
  | flow q r =>
    exact Or.inr (Or.inr (Or.inr (Or.inr (Or.inr (Or.inl
      ⟨q, ⟨hplaced.1, hsensible.1⟩, r, ⟨hplaced.2, hsensible.2⟩, rfl⟩)))))
  | holds q o =>
    exact Or.inr (Or.inr (Or.inr (Or.inr (Or.inr (Or.inr
      ⟨q, ⟨hplaced, hsensible.1⟩, o, hf.objectOfHolds, rfl⟩)))))

end Finite

/-- **Finitely many facts** can be derived. -/
theorem finite_derives (hp : p.Accepted) (hhow : how.Shallow) :
    {f | Derives p how [] f}.Finite := by
  have hcontexts : {c | Derives p how [] (.context c)}.Finite :=
    (finite_creatable p how).subset fun _ hc => hc.modest hp hhow
  have hobjects : {o | Derives p how [] (.object o)}.Finite :=
    (finite_allocatable p how).subset fun _ ho => ho.modest hp hhow
  exact finite_derives_of_finite hcontexts hobjects hp

namespace State

variable {s t : State}

/-! ## The length of a run -/

/-- Where finitely many facts can be derived, there is a bound on the metrics of all runs. -/
theorem exists_count_le_of_finite (hfinite : {f | Derives p how [] f}.Finite) :
    ∃ bound, ∀ s : State, s.Grounded p how [] → ∀ k, s.metrics.count k ≤ bound := by
  refine ⟨hfinite.toFinset.toList.length, fun s hs k => ?_⟩
  obtain ⟨l, hnodup, hlength, hmem⟩ := s.exists_listing k
  rw [← hlength]
  refine length_le_of_related (R := Resolves s.arena) hnodup (fun r hr => ?_) Resolves.inj
  obtain ⟨f, hres, hd⟩ := hs r ((hmem r).1 hr).1.finds
  exact ⟨f, by simpa using hd, hres⟩

theorem exists_count_le (hp : p.Accepted) (hhow : how.Shallow) :
    ∃ bound, ∀ s : State, s.Grounded p how [] → ∀ k, s.metrics.count k ≤ bound :=
  exists_count_le_of_finite (finite_derives hp hhow)

/-- No more pointers wait than there are. -/
theorem Balanced.length_queue_le (hb : s.Balanced) :
    s.pending.queue.toList.length ≤ s.metrics.pointers := by
  obtain ⟨l, -, hlength, hmem⟩ := exists_idListing .pointers s.arena.pointers.size
  show _ ≤ s.arena.pointers.size
  rw [← hlength]
  refine (List.subperm_of_subset hb.coherent.nodup fun i hi => (hmem i).2 ?_).length_le
  obtain ⟨x, hx⟩ := hb.queued hi
  exact exists_get?_iff_lt.1 ⟨x, Arena.pointer_eq_ok.1 hx⟩

/-- How many steps can follow, where metrics stay within a bound. -/
def rank (bound : Nat) (s : State) : Nat :=
  (bound - s.metrics.facts) * (bound + 1) + s.pending.queue.toList.length

section Bounded

variable (hp : p.Accepted) {bound : Nat}
  (hbound : ∀ s : State, s.Grounded p how [] → ∀ k, s.metrics.count k ≤ bound)
include hp hbound

theorem Advances.rank_lt (hs : Reaches p how noExtra s) (h : s.Advances p how t) :
    t.rank bound < s.rank bound := by
  have ht : Reaches p how noExtra t := hs.step h
  have hground := grounded_of_noExtra hp ht
  have hfacts : t.metrics.facts ≤ bound := hbound t hground .holds
  have hpointers : t.metrics.pointers ≤ bound := hbound t hground .pointer
  have hqueue := (balanced_of_reaches hp ht).length_queue_le
  unfold rank
  obtain ⟨-, hlt | ⟨hle, hlt⟩⟩ := h.progress hp (balanced_of_reaches hp hs)
  · have hdrop : (bound - t.metrics.facts + 1) * (bound + 1) ≤
        (bound - s.metrics.facts) * (bound + 1) := Nat.mul_le_mul_right _ (by omega)
    rw [Nat.add_mul, Nat.one_mul] at hdrop
    omega
  · have hdrop : (bound - t.metrics.facts) * (bound + 1) ≤
        (bound - s.metrics.facts) * (bound + 1) := Nat.mul_le_mul_right _ (by omega)
    omega

theorem rank_le (hs : Reaches p how noExtra s) : s.rank bound ≤ bound * (bound + 1) + bound := by
  have hpointers : s.metrics.pointers ≤ bound := hbound s (grounded_of_noExtra hp hs) .pointer
  have hqueue := (balanced_of_reaches hp hs).length_queue_le
  exact Nat.add_le_add (Nat.mul_le_mul_right _ (Nat.sub_le ..)) (hqueue.trans hpointers)

/-- Each step of a run lowers the rank. -/
theorem length_le_rank {run : Nat → State} {n : Nat} (hstart : Reaches p how noExtra (run 0))
    (hsteps : ∀ k < n, (run k).Advances p how (run (k + 1))) :
    Reaches p how noExtra (run n) ∧ n + (run n).rank bound ≤ (run 0).rank bound := by
  induction n with
  | zero => exact ⟨hstart, by omega⟩
  | succ n ih =>
    obtain ⟨hreaches, hle⟩ := ih fun k hk => hsteps k (by omega)
    have hstep := hsteps n (Nat.lt_succ_self n)
    have hlt := hstep.rank_lt hp hbound hreaches
    exact ⟨hreaches.step hstep, by omega⟩

/-- A run that chooses as the discipline says reaches a state in which nothing waits. -/
theorem exists_run_isEmpty (hs : Reaches p how noExtra s) :
    ∃ limit t, t.pending.isEmpty = true ∧
      ∀ more n, limit ≤ more → limit ≤ n → ∃ k, run p how more n s = .ok (k, t) := by
  induction hrank : s.rank bound using Nat.strong_induction_on generalizing s with
  | _ rank ih =>
  cases hempty : s.pending.isEmpty with
  | true =>
    refine ⟨0, s, hempty, fun more n _ _ => ?_⟩
    cases n with
    | zero => exact ⟨0, rfl⟩
    | succ n => exact ⟨n + 1, bind_eq_ok.2 ⟨none, step_of_isEmpty hempty more, rfl⟩⟩
  | false =>
    obtain ⟨limit, u, hstep⟩ :=
      exists_step hp (balanced_of_reaches hp hs) (grounded_of_noExtra hp hs) hempty
    have hadvances := advances_of_step (hstep limit (Nat.le_refl limit))
    obtain ⟨limit', t, ht, hrun⟩ :=
      ih _ (hrank ▸ hadvances.rank_lt hp hbound hs) (hs.step hadvances) rfl
    refine ⟨max limit (limit' + 1), t, ht, fun more n hmore hn => ?_⟩
    obtain ⟨n, rfl⟩ := Nat.exists_eq_add_of_le' (show 1 ≤ n by omega)
    obtain ⟨k, hk⟩ := hrun more n (by omega) (by omega)
    exact ⟨k, bind_eq_ok.2 ⟨some u, hstep more (by omega), hk⟩⟩

theorem length_le {states : Nat → State} {n : Nat} (hstart : Reaches p how noExtra (states 0))
    (hsteps : ∀ k < n, (states k).Advances p how (states (k + 1))) :
    n ≤ bound * (bound + 1) + bound := by
  have hle := (length_le_rank hp hbound hstart hsteps).2
  have hrank := rank_le hp hbound hstart
  omega

theorem exists_solve (discipline : Discipline) :
    ∃ limit s, s.pending.isEmpty = true ∧
      ∀ more, limit ≤ more → (initial how discipline).solve p how more = .ok s := by
  obtain ⟨limit, s, hstart⟩ := exists_start hp how discipline
  have hs : Reaches p how noExtra s := .start (hstart limit (Nat.le_refl limit))
  obtain ⟨limit', t, hempty, hrun⟩ := exists_run_isEmpty hp hbound hs
  refine ⟨max limit limit', t, hempty, fun more hmore => ?_⟩
  obtain ⟨k, hk⟩ := hrun more more (by omega) (by omega)
  refine bind_eq_ok.2 ⟨s, hstart more (by omega), bind_eq_ok.2 ⟨(k, t), hk, ?_⟩⟩
  simp only [hempty, if_true]
  rfl

end Bounded

/-- **Termination.** Unless contexts remember objects that remember objects, there is a bound on the
number of steps of all runs of an accepted program, whichever pointer each step serves and in
whichever order objects react. No step fails, so a run can only end where nothing waits. In
particular solving leads to such a state under every discipline, and a larger limit changes nothing.
-/
theorem analysis_terminates (hp : p.Accepted) (hhow : how.Shallow) :
    (∃ bound, ∀ (states : Nat → State) n, Reaches p how noExtra (states 0) →
      (∀ k < n, (states k).Advances p how (states (k + 1))) → n ≤ bound) ∧
    (∀ s, Reaches p how noExtra s → s.Servable p how) ∧
    ∀ discipline, ∃ limit s, s.pending.isEmpty = true ∧
      ∀ more, limit ≤ more → (initial how discipline).solve p how more = .ok s := by
  obtain ⟨bound, hbound⟩ := exists_count_le hp hhow
  refine ⟨⟨_, fun states n => length_le hp hbound⟩, fun s hs => ?_, exists_solve hp hbound⟩
  exact servable hp (balanced_of_reaches hp hs) (grounded_of_noExtra hp hs)

theorem boxes_terminates : (Sensitivity.object 1).Shallow ∧
    (∃ bound, ∀ (states : Nat → State) n,
      Reaches (.index boxes) (.object 1) noExtra (states 0) →
      (∀ k < n, (states k).Advances (.index boxes) (.object 1) (states (k + 1))) → n ≤ bound) ∧
    ∃ limit s, s.pending.isEmpty = true ∧ ∀ more, limit ≤ more →
      (initial (.object 1) (.random (7 * ·))).solve (.index boxes) (.object 1) more = .ok s := by
  have hshallow : (Sensitivity.object 1).Shallow := Nat.le_refl 1
  obtain ⟨hbound, -, hsolve⟩ := analysis_terminates boxes_accepted hshallow
  exact ⟨hshallow, hbound, hsolve (.random (7 * ·))⟩

end State

end PointsTo

end ObjectFlow
