import Mathlib.Logic.Relation
import ObjectFlow.CallGraph.Hierarchical
import ObjectFlow.Proofs.Computations
import ObjectFlow.Proofs.WellFormedness

/-!
# The class hierarchy of an accepted program

No link of the hierarchy leads out of it (`Hierarchy.Closed`): the chain of superclasses of every
class comes to an end, and whatever is listed below a class is a class. So a search for subtypes
leaves none out, dispatch answers on all of them, and following the calls that the hierarchy allows
never leads to a method that the program lacks (`exists_hierarchical`).
-/

namespace ObjectFlow

/-! ## Searching -/

section Reach

variable {α : Type} [Keyed α] [DecidableEq α] {all : List α} {next : α → Except Fault (List α)}

/-- There is room for all that can be found. -/
theorem exists_reachFrom (h : ∀ a ∈ all, ∃ more, next a = .ok more) {room : Nat} {queue : List α}
    {seen : Roster α} (hroom : seen.missing all ≤ room) :
    ∃ r, reachFrom all next room queue seen = .ok r := by
  fun_induction reachFrom all next room queue seen with
  | case1 room queue seen hd => exact ⟨seen, rfl⟩
  | case2 queue seen a rest hd =>
    have hlt := missing_lt_of_isNew (isNew_of_dropWhile hd)
    omega
  | case3 queue seen a rest room hd ih =>
    have hnew := isNew_of_dropWhile hd
    have hlt := missing_lt_of_isNew hnew
    obtain ⟨more, hmore⟩ := h a (isNew_iff.1 hnew).2
    rw [hmore]
    exact ih more (by omega)

/-- A link leads from one value to another. -/
def Links (next : α → Except Fault (List α)) (a b : α) : Prop :=
  ∃ more, next a = .ok more ∧ b ∈ more

/-- What links pass on holds of all that a search finds, if it holds where the search begins. -/
theorem reachFrom_induction {P : α → Prop} (hstep : ∀ a b, P a → Links next a b → P b) {room : Nat}
    {queue : List α} {seen r : Roster α} (h : reachFrom all next room queue seen = .ok r)
    (hqueue : ∀ a ∈ queue, P a) (hseen : ∀ a ∈ seen.toList, P a) : ∀ a ∈ r.toList, P a := by
  fun_induction reachFrom all next room queue seen with
  | case1 room queue seen hd =>
    obtain rfl : seen = r := Except.ok.inj h
    exact hseen
  | case2 queue seen a rest hd => cases h
  | case3 queue seen a rest room hd ih =>
    obtain ⟨more, hmore, h⟩ := bind_eq_ok.1 h
    have hrest : ∀ b ∈ a :: rest, P b := fun b hb =>
      hqueue b ((List.dropWhile_sublist _).subset (hd ▸ hb))
    refine ih more h (fun b hb => ?_) fun b hb => ?_
    · rcases List.mem_append.1 hb with hb | hb
      · exact hrest b (List.mem_cons_of_mem _ hb)
      · exact hstep a b (hrest a List.mem_cons_self) ⟨more, hmore, hb⟩
    · rcases Roster.mem_insert.1 hb with hb | rfl
      · exact hseen b hb
      · exact hrest b List.mem_cons_self

/-- If links can be followed from every member and lead to members only, then a search from a member
finds exactly the members that links lead to. -/
theorem exists_reach (h : ∀ a ∈ all, ∃ more, next a = .ok more ∧ ∀ b ∈ more, b ∈ all) {start : α}
    (hstart : start ∈ all) :
    ∃ r, reach all next start = .ok r ∧ (∀ a ∈ r.toList, a ∈ all) ∧
      ∀ a, a ∈ r.toList ↔ Relation.ReflTransGen (Links next) start a := by
  obtain ⟨r, hr⟩ : ∃ r, reach all next start = .ok r :=
    exists_reachFrom (fun a ha => (h a ha).imp fun _ => And.left) List.countP_le_length
  obtain ⟨-, hqueue, hfound⟩ := reachFrom_closed hr
  have hmember : ∀ a ∈ r.toList, a ∈ all ∧ ∀ b, Links next a b → b ∈ r.toList := by
    intro a ha
    rcases hfound a ha with hempty | ⟨hall, more, hmore, hclosed⟩
    · simp at hempty
    · refine ⟨hall, ?_⟩
      rintro b ⟨more', hmore', hb⟩
      obtain ⟨more'', hmore'', hmem⟩ := h a hall
      rw [hmore] at hmore' hmore''
      cases hmore'
      cases hmore''
      exact hclosed b hb (hmem b hb)
  refine ⟨r, hr, fun a ha => (hmember a ha).1, fun a => ⟨fun ha => ?_, fun ha => ?_⟩⟩
  · refine reachFrom_induction (fun b c hb hbc => hb.tail hbc) hr ?_ (by simp) a ha
    intro b hb
    rw [List.mem_singleton.1 hb]
  · induction ha with
    | refl => exact hqueue start List.mem_cons_self hstart
    | tail _ hbc ih => exact (hmember _ ih).2 _ hbc

end Reach

/-! ## Classes -/

/-- An entry tells a class and those around it as the model declares them. -/
structure ClassEntry.Describes (e : ClassEntry) (m : Model) (c : ClassId) (decl : ClassDecl) :
    Prop where
  superclass : e.superclass = decl.superclass
  interfaces : e.interfaces = decl.interfaces
  isInterface : e.isInterface = decl.isInterface
  lineage : e.lineage = (m.lineage? m.classes.size c).getD [c]
  subclasses : ∀ d, d ∈ e.subclasses ↔ ∃ below, m.classes[d.index]? = some below ∧
    below.superclass = some c
  implementors : ∀ d, d ∈ e.implementors ↔ ∃ below, m.classes[d.index]? = some below ∧
    below.isInterface = false ∧ c ∈ below.interfaces
  subinterfaces : ∀ d, d ∈ e.subinterfaces ↔ ∃ below, m.classes[d.index]? = some below ∧
    below.isInterface = true ∧ c ∈ below.interfaces

namespace Hierarchy

/-- The superclasses of a class upward, itself first, up to one without a superclass. -/
inductive Ascends (h : Hierarchy) : ClassId → List ClassId → Prop
  | root {c : ClassId} : h.superclass c = .ok none → Ascends h c [c]
  | step {c d : ClassId} {above : List ClassId} : h.superclass c = .ok (some d) →
      Ascends h d above → Ascends h c (c :: above)

/-- A class or one of its subtypes, found by going down step by step. -/
def Below (h : Hierarchy) : ClassId → ClassId → Prop :=
  Relation.ReflTransGen (Links h.directSubtypes)

/-- No link leads out of the hierarchy. -/
structure Closed (h : Hierarchy) : Prop where
  lineage : ∀ {c e}, h.entry c = .ok e → h.Ascends c e.lineage
  subtypes : ∀ {c below}, h.directSubtypes c = .ok below → ∀ d ∈ below, ∃ e, h.entry d = .ok e

end Hierarchy

namespace Program

variable {p : Program} {c d : ClassId}

theorem mem_classIds (hp : p.Accepted) :
    c ∈ p.hierarchy.classIds ↔ c.index < p.model.classes.size := by
  have hsize : p.hierarchy.classes.size = p.model.classes.size := by
    rw [hp.eq_index.2]
    simp [index, Hierarchy.ofModel, Model.classEntries, Model.classIds, Id.range]
  rw [Hierarchy.classIds, Id.mem_range, hsize]

theorem mem_methodIds (hp : p.Accepted) {m : MethodId} :
    m ∈ p.methodIds ↔ ∃ method, p.method m = .ok method := by
  rw [methodIds, Model.methodIds, Id.mem_range]
  constructor
  · exact fun h => ⟨_, (method_eq_ok hp).2 ⟨_, Array.getElem?_eq_getElem h, rfl⟩⟩
  · rintro ⟨method, hm⟩
    obtain ⟨d, hd, -⟩ := (method_eq_ok hp).1 hm
    exact (Array.getElem?_eq_some_iff.1 hd).1

theorem mem_classEntries {m : Model} {decl : ClassDecl} :
    (c, decl) ∈ m.classEntries ↔ m.classes[c.index]? = some decl :=
  mem_range_zip

/-- The classes of one sort that name a class among their interfaces. -/
theorem mem_naming {m : Model} {areInterfaces : Bool} :
    d ∈ Hierarchy.naming m areInterfaces c ↔ ∃ decl, m.classes[d.index]? = some decl ∧
      decl.isInterface = areInterfaces ∧ c ∈ decl.interfaces := by
  unfold Hierarchy.naming
  rw [List.mem_flatMap]
  constructor
  · rintro ⟨⟨id, decl⟩, hentry, hd⟩
    dsimp only at hd
    split at hd
    · next hsort =>
      obtain ⟨c', hc', rfl⟩ := List.mem_map.1 hd
      obtain ⟨hmem, hc⟩ := List.mem_filter.1 hc'
      obtain rfl := of_decide_eq_true hc
      exact ⟨decl, mem_classEntries.1 hentry, hsort, hmem⟩
    · cases hd
  · rintro ⟨decl, hdecl, hsort, hc⟩
    refine ⟨(d, decl), mem_classEntries.2 hdecl, ?_⟩
    dsimp only
    rw [if_pos hsort]
    exact List.mem_map.2 ⟨c, List.mem_filter.2 ⟨hc, decide_eq_true rfl⟩, rfl⟩

/-- What the entry of a class says about the class and about those around it. -/
theorem exists_describes (hp : p.Accepted) {e : ClassEntry} (h : p.hierarchy.entry c = .ok e) :
    ∃ decl, p.model.classes[c.index]? = some decl ∧ e.Describes p.model c decl := by
  rw [entry_eq_ok, hp.eq_index.2] at h
  simp only [index, Hierarchy.ofModel, List.getElem?_toArray, List.getElem?_map,
    Model.classEntries, Model.classIds, getElem?_range_zip, Option.map_map,
    Option.map_eq_some_iff] at h
  obtain ⟨decl, hdecl, rfl⟩ := h
  refine ⟨decl, hdecl, rfl, rfl, rfl, rfl, fun d => ?_, fun d => mem_naming, fun d => mem_naming⟩
  constructor
  · intro hd
    obtain ⟨⟨id, below⟩, hentry, hd⟩ := List.mem_filterMap.1 hd
    split at hd
    · next hsuper =>
      cases hd
      exact ⟨below, mem_range_zip.1 hentry, hsuper⟩
    · cases hd
  · rintro ⟨below, hbelow, hsuper⟩
    exact List.mem_filterMap.2 ⟨(d, below), mem_range_zip.2 hbelow, if_pos hsuper⟩

theorem links_directSupertypes_iff (hp : p.Accepted) :
    Links p.hierarchy.directSupertypes d c ↔ ∃ decl, p.model.classes[d.index]? = some decl ∧
      (decl.superclass = some c ∨ c ∈ decl.interfaces) := by
  constructor
  · rintro ⟨above, habove, hc⟩
    obtain ⟨e, he, h⟩ := bind_eq_ok.1 habove
    obtain rfl := pure_eq_ok.1 h
    obtain ⟨decl, hdecl, hdescribes⟩ := exists_describes hp he
    rw [hdescribes.superclass, hdescribes.interfaces, List.mem_append, Option.mem_toList] at hc
    exact ⟨decl, hdecl, hc⟩
  · rintro ⟨decl, hdecl, hc⟩
    obtain ⟨e, he, -⟩ := exists_classEntry hp (Array.getElem?_eq_some_iff.1 hdecl).1
    obtain ⟨decl', hdecl', hdescribes⟩ := exists_describes hp he
    rw [hdecl] at hdecl'
    cases hdecl'
    refine ⟨_, bind_eq_ok.2 ⟨e, he, rfl⟩, ?_⟩
    rwa [hdescribes.superclass, hdescribes.interfaces, List.mem_append, Option.mem_toList]

/-- What stands directly below an interface names it among its interfaces; what stands directly
below any other class names it as its superclass. -/
theorem links_directSubtypes_iff (hp : p.Accepted) :
    Links p.hierarchy.directSubtypes c d ↔ ∃ above decl, p.model.classes[c.index]? = some above ∧
      p.model.classes[d.index]? = some decl ∧
      if above.isInterface then c ∈ decl.interfaces else decl.superclass = some c := by
  have hmem : ∀ {e : ClassEntry} {above : ClassDecl}, e.Describes p.model c above →
      (d ∈ (if e.isInterface then e.implementors ++ e.subinterfaces else e.subclasses) ↔
        ∃ decl, p.model.classes[d.index]? = some decl ∧
          if above.isInterface then c ∈ decl.interfaces else decl.superclass = some c) := by
    intro e above he
    rw [he.isInterface]
    cases above.isInterface with
    | false => simpa using he.subclasses d
    | true =>
      simp only [if_true, List.mem_append, he.implementors, he.subinterfaces]
      constructor
      · rintro (⟨decl, hdecl, -, hc⟩ | ⟨decl, hdecl, -, hc⟩) <;> exact ⟨decl, hdecl, hc⟩
      · rintro ⟨decl, hdecl, hc⟩
        cases hsort : decl.isInterface with
        | false => exact Or.inl ⟨decl, hdecl, hsort, hc⟩
        | true => exact Or.inr ⟨decl, hdecl, hsort, hc⟩
  constructor
  · rintro ⟨below, hbelow, hd⟩
    obtain ⟨e, he, h⟩ := bind_eq_ok.1 hbelow
    obtain rfl := pure_eq_ok.1 h
    obtain ⟨above, habove, hdescribes⟩ := exists_describes hp he
    obtain ⟨decl, hdecl, hnames⟩ := (hmem hdescribes).1 hd
    exact ⟨above, decl, habove, hdecl, hnames⟩
  · rintro ⟨above, decl, habove, hdecl, hnames⟩
    obtain ⟨e, he, -⟩ := exists_classEntry hp (Array.getElem?_eq_some_iff.1 habove).1
    obtain ⟨above', habove', hdescribes⟩ := exists_describes hp he
    rw [habove] at habove'
    cases habove'
    exact ⟨_, bind_eq_ok.2 ⟨e, he, rfl⟩, (hmem hdescribes).2 ⟨decl, hdecl, hnames⟩⟩

theorem class_lt_of_superclass (hp : p.Accepted) (h : p.model.superclass? c = some d) :
    d.index < p.model.classes.size :=
  hp.wellFormed.tables.lt_of_superclass h

theorem superclass_eq_ok (hp : p.Accepted) (hc : c.index < p.model.classes.size) :
    p.hierarchy.superclass c = .ok (p.model.superclass? c) := by
  obtain ⟨e, he, -⟩ := exists_classEntry hp hc
  obtain ⟨decl, hdecl, hdescribes⟩ := exists_describes hp he
  refine bind_eq_ok.2 ⟨e, he, pure_eq_ok.2 ?_⟩
  rw [hdescribes.superclass, Model.superclass?, hdecl]
  rfl

/-- A chain that is found within some bound is the whole chain. -/
theorem ascends_of_lineage? (hp : p.Accepted) {bound : Nat} {chain : List ClassId}
    (hc : c.index < p.model.classes.size) (h : p.model.lineage? bound c = some chain) :
    p.hierarchy.Ascends c chain := by
  induction bound generalizing c chain with
  | zero => cases h
  | succ bound ih =>
    have hsuper := superclass_eq_ok hp hc
    unfold Model.lineage? at h
    split at h
    · next hnone =>
      cases h
      exact .root (hsuper.trans (congrArg _ hnone))
    · next d hd =>
      obtain ⟨above, habove, rfl⟩ := Option.map_eq_some_iff.1 h
      exact .step (hsuper.trans (congrArg _ hd)) (ih (class_lt_of_superclass hp hd) habove)

theorem exists_lineage? (hp : p.Accepted) (hc : c.index < p.model.classes.size) :
    ∃ chain, p.model.lineage? p.model.classes.size c = some chain :=
  Option.isSome_iff_exists.1
    ((hp.wellFormed.tables.isSome_lineage?_iff hc).2 (hp.wellFormed.chains c hc))

theorem exists_directSubtypes (hp : p.Accepted) (hc : c.index < p.model.classes.size) :
    ∃ below, p.hierarchy.directSubtypes c = .ok below ∧
      ∀ d ∈ below, d.index < p.model.classes.size := by
  obtain ⟨e, he, -⟩ := exists_classEntry hp hc
  obtain ⟨below, hbelow⟩ : ∃ below, p.hierarchy.directSubtypes c = .ok below :=
    ⟨_, bind_eq_ok.2 ⟨e, he, rfl⟩⟩
  refine ⟨below, hbelow, fun d hd => ?_⟩
  obtain ⟨-, decl, -, hdecl, -⟩ := (links_directSubtypes_iff hp).1 ⟨below, hbelow, hd⟩
  exact (Array.getElem?_eq_some_iff.1 hdecl).1

theorem hierarchy_closed (hp : p.Accepted) : p.hierarchy.Closed where
  lineage {c e} he := by
    obtain ⟨chain, hchain⟩ := exists_lineage? hp (class_lt_of_entry hp he)
    obtain ⟨decl, -, hdescribes⟩ := exists_describes hp he
    rw [hdescribes.lineage, hchain]
    exact ascends_of_lineage? hp (class_lt_of_entry hp he) hchain
  subtypes {c below} hbelow d hd := by
    obtain ⟨e, he, -⟩ := bind_eq_ok.1 hbelow
    obtain ⟨below', hbelow', hlt⟩ := exists_directSubtypes hp (class_lt_of_entry hp he)
    rw [hbelow] at hbelow'
    cases hbelow'
    exact (exists_classEntry hp (hlt d hd)).imp fun _ => And.left

/-! ## Possible callees -/

theorem exists_subtypes (hp : p.Accepted) (hc : c.index < p.model.classes.size) :
    ∃ r, p.hierarchy.subtypes c = .ok r ∧ (∀ d ∈ r.toList, d.index < p.model.classes.size) ∧
      ∀ d, d ∈ r.toList ↔ p.hierarchy.Below c d := by
  obtain ⟨e, he, -⟩ := exists_classEntry hp hc
  have hlinks : ∀ d ∈ p.hierarchy.classIds, ∃ below, p.hierarchy.directSubtypes d = .ok below ∧
      ∀ b ∈ below, b ∈ p.hierarchy.classIds := by
    intro d hd
    obtain ⟨below, hbelow, hlt⟩ := exists_directSubtypes hp ((mem_classIds hp).1 hd)
    exact ⟨below, hbelow, fun b hb => (mem_classIds hp).2 (hlt b hb)⟩
  obtain ⟨r, hr, hmembers, hfound⟩ := exists_reach hlinks ((mem_classIds hp).2 hc)
  exact ⟨r, bind_eq_ok.2 ⟨e, he, hr⟩, fun d hd => (mem_classIds hp).1 (hmembers d hd), hfound⟩

theorem exists_virtualTargets (hp : p.Accepted) (hc : c.index < p.model.classes.size)
    (sub : String) :
    ∃ targets, p.hierarchy.virtualTargets c sub = .ok targets ∧
      ∀ m, m ∈ targets ↔
        ∃ d, p.hierarchy.Below c d ∧ p.hierarchy.dispatch d sub = .ok (some m) := by
  obtain ⟨r, hr, hlt, hbelow⟩ := exists_subtypes hp hc
  obtain ⟨found, hfound⟩ := exists_mapM fun d (hd : d ∈ r.toList) =>
    dispatch_total hp (hlt d hd) sub
  refine ⟨_, bind_eq_ok.2 ⟨r, hr, bind_eq_ok.2 ⟨found, hfound, rfl⟩⟩, fun m => ?_⟩
  rw [Std.ExtTreeSet.mem_toList, Std.ExtTreeSet.mem_ofList, List.contains_iff_mem,
    List.mem_filterMap]
  simp only [id_eq, exists_eq_right, mem_of_mapM hfound, hbelow]

/-- A call may lead to a method: it does so on a receiver whose class, if it matters, is below the
class named in the call. -/
def MayCall (p : Program) (call : Invoke) (m : MethodId) : Prop :=
  ∃ receiver, (∀ c, receiver = some c → p.hierarchy.Below call.target.owner c) ∧
    p.hierarchy.callee receiver call = .ok (some m)

theorem MayCall.exists_method (hp : p.Accepted) {call : Invoke} {m : MethodId}
    (h : p.MayCall call m) : ∃ method, p.method m = .ok method := by
  obtain ⟨receiver, -, hm⟩ := h
  exact method_of_callee hp hm

/-- Static and special calls do not look at the receiver. -/
theorem callee_eq_callee_none {call : Invoke} (hk : call.kind = .static ∨ call.kind = .special)
    (receiver : Option ClassId) :
    p.hierarchy.callee receiver call = p.hierarchy.callee none call := by
  rcases hk with hk | hk <;> simp only [Hierarchy.callee, hk]

theorem mayCall_iff_callee_none {call : Invoke} (hk : call.kind = .static ∨ call.kind = .special)
    {m : MethodId} : p.MayCall call m ↔ p.hierarchy.callee none call = .ok (some m) := by
  constructor
  · rintro ⟨receiver, -, hm⟩
    rwa [callee_eq_callee_none hk] at hm
  · intro hm
    exact ⟨none, by simp, hm⟩

theorem mayCall_iff_dispatch {call : Invoke} (hk : call.kind = .virtual ∨ call.kind = .interface)
    {m : MethodId} :
    p.MayCall call m ↔ ∃ c, p.hierarchy.Below call.target.owner c ∧
      p.hierarchy.dispatch c call.target.subsignature = .ok (some m) := by
  constructor
  · rintro ⟨receiver, hbelow, hm⟩
    cases receiver with
    | none => rcases hk with hk | hk <;> simp [Hierarchy.callee, hk] at hm
    | some c =>
      refine ⟨c, hbelow c rfl, ?_⟩
      rcases hk with hk | hk <;> simpa only [Hierarchy.callee, hk] using hm
  · rintro ⟨c, hc, hm⟩
    refine ⟨some c, fun d hd => by cases hd; exact hc, ?_⟩
    rcases hk with hk | hk <;> simpa only [Hierarchy.callee, hk] using hm

/-- The possible callees of a call are the methods that it may lead to. -/
theorem exists_possibleCallees (hp : p.Accepted) {site : StmtId} {call : Invoke}
    (h : p.stmt site = .ok (.invoke call)) :
    ∃ callees, p.hierarchy.possibleCallees call = .ok callees ∧
      ∀ m, m ∈ callees ↔ p.MayCall call m := by
  obtain ⟨found, hfound⟩ : ∃ found, p.hierarchy.callee none call = .ok found :=
    callee_total hp h fun _ hc => by cases hc
  have hdirect : call.kind = .static ∨ call.kind = .special →
      ∀ m, m ∈ found.toList ↔ p.MayCall call m := by
    intro hk m
    rw [mayCall_iff_callee_none hk, hfound]
    simp
  obtain ⟨targets, htargets, hmem⟩ :=
    exists_virtualTargets hp (owner_lt_of_invoke hp h) call.target.subsignature
  have hvirtual : call.kind = .virtual ∨ call.kind = .interface →
      ∀ m, m ∈ targets ↔ p.MayCall call m := by
    intro hk m
    rw [mayCall_iff_dispatch hk, hmem]
  unfold Hierarchy.possibleCallees
  split
  · next hk => exact ⟨_, bind_eq_ok.2 ⟨found, hfound, rfl⟩, hdirect (.inl hk)⟩
  · next hk => exact ⟨_, bind_eq_ok.2 ⟨found, hfound, rfl⟩, hdirect (.inr hk)⟩
  · next hk => exact ⟨targets, htargets, hvirtual (.inl hk)⟩
  · next hk => exact ⟨targets, htargets, hvirtual (.inr hk)⟩

end Program

/-! ## Calls -/

namespace CallGraph

variable {p : Program}

/-- The class hierarchy allows an edge: the call at its site may lead to its callee. -/
def Allowed (p : Program) (e : CallEdge StmtId MethodId) : Prop :=
  ∃ call, p.stmt e.site = .ok (.invoke call) ∧ call.kind = e.kind ∧ p.MayCall call e.callee

/-- A call graph starts at the entry and follows exactly the calls that the hierarchy allows. -/
structure Follows (p : Program) (g : CallGraph StmtId MethodId) : Prop where
  methods : ∀ m ∈ g.reachable.toList, ∃ method, p.method m = .ok method
  entry : p.entry ∈ g.reachable.toList
  edges : ∀ e, e ∈ g.edges.toList ↔ e.site.method ∈ g.reachable.toList ∧ Allowed p e
  callees : ∀ e ∈ g.edges.toList, e.callee ∈ g.reachable.toList

theorem exists_possibleCalls (hp : p.Accepted) {m : MethodId} {method : Method}
    (hm : p.method m = .ok method) :
    ∃ calls, possibleCalls p m = .ok calls ∧ ∀ e, e ∈ calls ↔ e.site.method = m ∧ Allowed p e := by
  have hcalls : ∃ calls, possibleCalls p m = .ok calls ∧
      ∀ e, e ∈ calls ↔ ∃ site ∈ method.callSites, e.site = site ∧ Allowed p e := by
    refine exists_bind hm (exists_flatten_mapM fun site hsite => ?_)
    obtain ⟨-, call, hst⟩ := (Program.mem_callSites hp hm).1 hsite
    obtain ⟨callees, hcallees, hmem⟩ := Program.exists_possibleCallees hp hst
    refine exists_bind (Program.invoke?_eq_ok.2 ⟨_, hst, rfl⟩) (exists_bind hcallees ⟨_, rfl, ?_⟩)
    intro e
    rw [List.mem_map]
    constructor
    · rintro ⟨callee, hcallee, rfl⟩
      exact ⟨rfl, call, hst, rfl, (hmem callee).1 hcallee⟩
    · rintro ⟨rfl, call', hst', hkind, hmay⟩
      rw [hst] at hst'
      cases hst'
      exact ⟨e.callee, (hmem _).2 hmay, by rw [hkind]⟩
  obtain ⟨calls, hcalls, hmem⟩ := hcalls
  refine ⟨calls, hcalls, fun e => (hmem e).trans ⟨?_, ?_⟩⟩
  · rintro ⟨site, hsite, rfl, hallowed⟩
    exact ⟨((Program.mem_callSites hp hm).1 hsite).1, hallowed⟩
  · rintro ⟨hsite, hallowed⟩
    have ⟨call, hst, _, _⟩ := hallowed
    exact ⟨e.site, (Program.mem_callSites hp hm).2 ⟨hsite, call, hst⟩, rfl, hallowed⟩

theorem Allowed.exists_method (hp : p.Accepted) {e : CallEdge StmtId MethodId}
    (h : Allowed p e) : ∃ method, p.method e.callee = .ok method := by
  obtain ⟨call, -, -, hmay⟩ := h
  exact hmay.exists_method hp

/-- The call graph of the hierarchy can be built, and it follows the calls that the hierarchy
allows. -/
theorem exists_follows (hp : p.Accepted) : ∃ g, hierarchical p = .ok g ∧ Follows p g := by
  obtain ⟨entry, hentry⟩ := Program.exists_entry hp
  have hlinks : ∀ m ∈ p.methodIds, ∃ next : List MethodId,
      (possibleCalls p m >>= fun calls => pure (calls.map (·.callee))) = .ok next ∧
        ∀ b ∈ next, b ∈ p.methodIds := by
    intro m hm
    obtain ⟨method, hmethod⟩ := (Program.mem_methodIds hp).1 hm
    obtain ⟨calls, hcalls, hmem⟩ := exists_possibleCalls hp hmethod
    refine exists_bind hcalls ⟨_, rfl, fun b hb => ?_⟩
    obtain ⟨e, he, rfl⟩ := List.mem_map.1 hb
    exact (Program.mem_methodIds hp).2 (((hmem e).1 he).2.exists_method hp)
  obtain ⟨r, hr, hmembers, hfound⟩ :=
    exists_reach hlinks ((Program.mem_methodIds hp).2 ⟨entry, hentry⟩)
  have hmethods : ∀ m ∈ r.toList, ∃ method, p.method m = .ok method := fun m hm =>
    (Program.mem_methodIds hp).1 (hmembers m hm)
  have hcalls : ∃ edges, (r.toList.mapM (possibleCalls p) >>= fun lists => pure lists.flatten) =
      .ok edges ∧ ∀ e, e ∈ edges ↔ ∃ m ∈ r.toList, e.site.method = m ∧ Allowed p e :=
    exists_flatten_mapM fun m hm => by
      obtain ⟨method, hmethod⟩ := hmethods m hm
      exact exists_possibleCalls hp hmethod
  obtain ⟨edges, hedges, hmem⟩ := hcalls
  obtain ⟨lists, hlists, hflat⟩ := bind_eq_ok.1 hedges
  obtain rfl := pure_eq_ok.1 hflat
  have hedge : ∀ e, e ∈ (Roster.ofList lists.flatten).toList ↔
      e.site.method ∈ r.toList ∧ Allowed p e := by
    intro e
    rw [Roster.mem_ofList, hmem]
    simp
  refine exists_bind hentry (exists_bind hr (exists_bind hlists ⟨_, rfl, ?_⟩))
  refine ⟨hmethods, (hfound _).2 .refl, hedge, fun e he => ?_⟩
  obtain ⟨hsite, hallowed⟩ := (hedge e).1 he
  obtain ⟨method, hmethod⟩ := hmethods _ hsite
  obtain ⟨calls, hcalls, hmem⟩ := exists_possibleCalls hp hmethod
  refine (hfound e.callee).2 (.tail ((hfound _).1 hsite) ⟨_, bind_eq_ok.2 ⟨calls, hcalls, rfl⟩, ?_⟩)
  exact List.mem_map_of_mem ((hmem e).2 ⟨rfl, hallowed⟩)

/-- The calls that the hierarchy allows can be followed from the entry, and they never lead out of
what has been found. -/
theorem exists_hierarchical (hp : p.Accepted) :
    ∃ g, hierarchical p = .ok g ∧ (∀ m ∈ g.reachable.toList, ∃ method, p.method m = .ok method) ∧
      ∀ e ∈ g.edges.toList, e.callee ∈ g.reachable.toList := by
  obtain ⟨g, hg, hfollows⟩ := exists_follows hp
  exact ⟨g, hg, hfollows.methods, hfollows.callees⟩

end CallGraph

end ObjectFlow
