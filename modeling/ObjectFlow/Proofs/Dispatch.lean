import ObjectFlow.Proofs.Subtyping

/-!
# Dispatch and the two views of the hierarchy

What the hierarchy answers is compared with what the model declares. Subtyping is the closure of the
links by which classes name their superclass and their interfaces (`exists_isSubtype`). Interfaces
may name each other in a circle, and the search upward still ends. Dispatch finds the nearest
concrete method on the chain of superclasses, or there is none on the whole chain
(`exists_dispatch`).

Going down from a class leads to subtypes only, so whatever is found on the way is dispatched on a
subtype. Where classes and interfaces keep to their places, it leads to all of them (`views_agree`).
-/

namespace ObjectFlow

namespace Model

variable {m : Model} {c d : ClassId} {sub : String} {id : MethodId}

/-- A class names another one as its superclass or as one of its interfaces. -/
def Extends (m : Model) (d c : ClassId) : Prop :=
  ∃ decl, m.classes[d.index]? = some decl ∧ (decl.superclass = some c ∨ c ∈ decl.interfaces)

/-- A class itself declares a method with a body under a subsignature. -/
def Concrete (m : Model) (c : ClassId) (sub : String) (id : MethodId) : Prop :=
  ∃ d, m.methods[id.index]? = some d ∧ d.owner = c ∧ d.subsignature = sub ∧ d.isAbstract = false

/-- A method is concrete in a class on the chain of superclasses, and no class before that one on
the chain has a concrete method under the subsignature. -/
def Nearest (m : Model) (c : ClassId) (sub : String) (id : MethodId) : Prop :=
  ∃ links owner, m.ancestor? links c = some owner ∧ m.Concrete owner sub id ∧
    ∀ fewer < links, ∀ d id', m.ancestor? fewer c = some d → ¬m.Concrete d sub id'

/-- A lineage lists the classes of a chain by their distance. -/
theorem getElem?_of_lineage? {bound : Nat} {chain : List ClassId}
    (h : m.lineage? bound c = some chain) (links : Nat) : chain[links]? = m.ancestor? links c := by
  induction bound generalizing c chain links with
  | zero => cases h
  | succ bound ih =>
    unfold lineage? at h
    split at h
    · next hnone =>
      cases h
      cases links with
      | zero => rfl
      | succ links => simp [ancestor?, hnone]
    · next d hd =>
      obtain ⟨above, habove, rfl⟩ := Option.map_eq_some_iff.1 h
      cases links with
      | zero => rfl
      | succ links => simpa [ancestor?, hd] using ih habove links

end Model

namespace Program

variable {p : Program} {c d : ClassId} {sub : String} {id : MethodId}

/-! ## Subtyping -/

theorem above_iff (hp : p.Accepted) :
    p.hierarchy.Above d c ↔ Relation.ReflTransGen p.model.Extends d c := by
  have hlinks : Links p.hierarchy.directSupertypes = p.model.Extends :=
    funext₂ fun _ _ => propext (links_directSupertypes_iff hp)
  rw [Hierarchy.Above, hlinks]

theorem lt_of_extends (hp : p.Accepted) (h : p.model.Extends d c) :
    c.index < p.model.classes.size := by
  obtain ⟨decl, hdecl, hc | hc⟩ := h
  · exact hp.wellFormed.tables.superclasses decl (mem_of_class hdecl) c hc
  · exact hp.wellFormed.tables.interfaces decl (mem_of_class hdecl) c hc

theorem exists_supertypes (hp : p.Accepted) (hd : d.index < p.model.classes.size) :
    ∃ r, p.hierarchy.supertypes d = .ok r ∧ ∀ c, c ∈ r.toList ↔ p.hierarchy.Above d c := by
  obtain ⟨e, he, -⟩ := exists_classEntry hp hd
  have hlinks : ∀ b ∈ p.hierarchy.classIds, ∃ above,
      p.hierarchy.directSupertypes b = .ok above ∧ ∀ c ∈ above, c ∈ p.hierarchy.classIds := by
    intro b hb
    obtain ⟨entry, hentry, -⟩ := exists_classEntry hp ((mem_classIds hp).1 hb)
    have habove : p.hierarchy.directSupertypes b =
        .ok (entry.superclass.toList ++ entry.interfaces) := bind_eq_ok.2 ⟨entry, hentry, rfl⟩
    refine ⟨_, habove, fun c hc => (mem_classIds hp).2 (lt_of_extends hp (d := b) ?_)⟩
    exact (links_directSupertypes_iff hp).1 ⟨_, habove, hc⟩
  obtain ⟨r, hr, -, hfound⟩ := exists_reach hlinks ((mem_classIds hp).2 hd)
  exact ⟨r, bind_eq_ok.2 ⟨e, he, hr⟩, hfound⟩

/-- Whether one class is a subtype of another is found out by following links upward. -/
theorem exists_isSubtype (hp : p.Accepted) (hd : d.index < p.model.classes.size) (c : ClassId) :
    ∃ b, p.hierarchy.isSubtype d c = .ok b ∧
      (b = true ↔ Relation.ReflTransGen p.model.Extends d c) := by
  unfold Hierarchy.isSubtype
  split
  · next heq =>
    rw [heq]
    exact ⟨true, rfl, iff_of_true rfl .refl⟩
  · obtain ⟨r, hr, hfound⟩ := exists_supertypes hp hd
    refine ⟨_, bind_eq_ok.2 ⟨r, hr, rfl⟩, ?_⟩
    rw [Roster.contains_iff, hfound, above_iff hp]

theorem isSubtype_iff (hp : p.Accepted) (hd : d.index < p.model.classes.size) :
    p.hierarchy.isSubtype d c = .ok true ↔ p.hierarchy.Above d c := by
  obtain ⟨b, hb, hiff⟩ := exists_isSubtype hp hd c
  rw [hb, above_iff hp, ← hiff, Except.ok.injEq]

/-! ## Dispatch -/

theorem isAbstractMethod_iff (hp : p.Accepted) :
    p.hierarchy.isAbstractMethod id = true ↔
      ∃ d, p.model.methods[id.index]? = some d ∧ d.isAbstract = true := by
  rw [hp.eq_index.2]
  simp only [index, Hierarchy.ofModel, Hierarchy.isAbstractMethod, Std.ExtTreeSet.contains_iff_mem,
    Std.ExtTreeSet.mem_ofList, List.contains_iff_mem, List.mem_filterMap, Prod.exists,
    Model.mem_methodEntries, Option.ite_none_right_eq_some, Option.some.injEq]
  constructor
  · rintro ⟨_, d, hd, habstract, rfl⟩
    exact ⟨d, hd, habstract⟩
  · rintro ⟨d, hd, habstract⟩
    exact ⟨id, d, hd, habstract, rfl⟩

theorem concrete?_eq_some_iff (hp : p.Accepted) :
    p.hierarchy.concrete? sub c = some id ↔ p.model.Concrete c sub id := by
  rw [Hierarchy.concrete?, Option.filter_eq_some_iff, Option.bind_eq_some_iff,
    Bool.not_eq_true', ← Bool.not_eq_true, isAbstractMethod_iff hp]
  constructor
  · rintro ⟨⟨e, he, hlookup⟩, hbody⟩
    obtain ⟨e', he', hdeclared⟩ := exists_classEntry hp (class_lt_of_entry hp (entry_eq_ok.2 he))
    rw [entry_eq_ok, he] at he'
    cases he'
    obtain ⟨d, hd, howner, hsub⟩ := Model.exists_of_declared? (hdeclared sub ▸ hlookup)
    exact ⟨d, hd, howner, hsub, Bool.eq_false_iff.2 fun habstract => hbody ⟨d, hd, habstract⟩⟩
  · rintro ⟨d, hd, rfl, rfl, hbody⟩
    have hlt := hp.wellFormed.tables.owners d (Array.mem_of_getElem? hd)
    obtain ⟨e, he, hdeclared⟩ := exists_classEntry hp hlt
    refine ⟨⟨e, entry_eq_ok.1 he, ?_⟩, ?_⟩
    · rw [hdeclared]
      exact Model.DeclaredOnce.declared?_eq_some hp.wellFormed.declaredOnce hd
    · rintro ⟨d', hd', habstract⟩
      rw [hd] at hd'
      cases hd'
      rw [hbody] at habstract
      cases habstract

theorem concrete?_eq_none_iff (hp : p.Accepted) :
    p.hierarchy.concrete? sub c = none ↔ ∀ id, ¬p.model.Concrete c sub id := by
  simp only [Option.eq_none_iff_forall_ne_some, ← concrete?_eq_some_iff hp, ne_eq]

/-- Dispatch searches a list that has the classes of the chain at their distances. -/
theorem exists_chain (hp : p.Accepted) (hc : c.index < p.model.classes.size) (sub : String) :
    ∃ chain : List ClassId, (∀ links, chain[links]? = p.model.ancestor? links c) ∧
      p.hierarchy.dispatch c sub = .ok (chain.findSome? (p.hierarchy.concrete? sub)) := by
  obtain ⟨e, he, -⟩ := exists_classEntry hp hc
  obtain ⟨decl, -, hdescribes⟩ := exists_describes hp he
  obtain ⟨chain, hchain⟩ := exists_lineage? hp hc
  have hlineage : e.lineage = chain := by rw [hdescribes.lineage, hchain, Option.getD_some]
  exact ⟨chain, Model.getElem?_of_lineage? hchain, bind_eq_ok.2 ⟨e, he, by rw [hlineage]; rfl⟩⟩

/-- What is found first in a list is found at the least position where anything is found. -/
theorem findSome?_eq_some_iff_position {α β : Type} {f : α → Option β} {as : List α} {b : β} :
    as.findSome? f = some b ↔ ∃ (i : Nat) (a : α), as[i]? = some a ∧ f a = some b ∧
      ∀ j < i, ∀ a', as[j]? = some a' → f a' = none := by
  rw [List.findSome?_eq_some_iff]
  constructor
  · rintro ⟨before, a, after, rfl, hb, hfirst⟩
    refine ⟨before.length, a, by simp, hb, fun j hj a' ha' => hfirst a' ?_⟩
    rw [List.getElem?_append_left hj] at ha'
    exact List.mem_of_getElem? ha'
  · rintro ⟨i, a, hi, hb, hfirst⟩
    obtain ⟨hlt, rfl⟩ := List.getElem?_eq_some_iff.1 hi
    refine ⟨as.take i, as[i], as.drop (i + 1), by simp, hb, fun a' ha' => ?_⟩
    obtain ⟨j, hj, rfl⟩ := List.mem_take_iff_getElem.1 ha'
    exact hfirst j (by omega) _ (List.getElem?_eq_getElem (by omega))

/-- Dispatch finds the nearest concrete method, if any class on the chain has one. -/
theorem exists_dispatch (hp : p.Accepted) (hc : c.index < p.model.classes.size) (sub : String) :
    ∃ found, p.hierarchy.dispatch c sub = .ok found ∧
      (∀ id, found = some id ↔ p.model.Nearest c sub id) ∧
      (found = none ↔ ∀ links owner id, p.model.ancestor? links c = some owner →
        ¬p.model.Concrete owner sub id) := by
  obtain ⟨chain, hchain, hdispatch⟩ := exists_chain hp hc sub
  refine ⟨_, hdispatch, fun id => ?_, ?_⟩
  · simp only [findSome?_eq_some_iff_position, hchain, concrete?_eq_some_iff hp,
      concrete?_eq_none_iff hp]
    exact exists₂_congr fun links owner => and_congr_right fun _ => and_congr_right fun _ =>
      forall₃_congr fun _ _ _ => forall_comm
  · simp only [List.findSome?_eq_none_iff, concrete?_eq_none_iff hp, List.mem_iff_getElem?, hchain]
    exact ⟨fun h links owner id hlinks => h owner ⟨links, hlinks⟩ id,
      fun h owner ⟨links, hlinks⟩ id => h links owner id hlinks⟩

/-! ## Going down -/

/-- A link downward is a link upward in the other direction. -/
theorem extends_of_links (hp : p.Accepted) (h : Links p.hierarchy.directSubtypes c d) :
    p.model.Extends d c := by
  obtain ⟨above, decl, -, hdecl, hnames⟩ := (links_directSubtypes_iff hp).1 h
  split at hnames
  · exact ⟨decl, hdecl, Or.inr hnames⟩
  · exact ⟨decl, hdecl, Or.inl hnames⟩

theorem above_of_below (hp : p.Accepted) (h : p.hierarchy.Below c d) : p.hierarchy.Above d c := by
  rw [above_iff hp]
  induction h with
  | refl => exact .refl
  | tail _ hlink ih => exact .head (extends_of_links hp hlink) ih

/-- Dispatch answers for classes only. -/
theorem lt_of_dispatch (hp : p.Accepted) (h : p.hierarchy.dispatch d sub = .ok (some id)) :
    d.index < p.model.classes.size := by
  obtain ⟨e, he, -⟩ := bind_eq_ok.1 h
  exact class_lt_of_entry hp he

/-- **The views of the hierarchy agree.** Every question about classes of an accepted program has an
answer. Subtyping is the closure of the links between classes, and dispatch finds the nearest
concrete method on the chain of superclasses. The targets of a virtual call are dispatched on
subtypes, and all such methods are targets if superclasses are no interfaces and what is listed as
an interface is one. -/
theorem views_agree (hp : p.Accepted) (hd : d.index < p.model.classes.size)
    (hc : c.index < p.model.classes.size) (sub : String) :
    (∃ b, p.hierarchy.isSubtype d c = .ok b ∧
      (b = true ↔ Relation.ReflTransGen p.model.Extends d c)) ∧
    (∃ found, p.hierarchy.dispatch d sub = .ok found ∧
      (∀ id, found = some id ↔ p.model.Nearest d sub id) ∧
      (found = none ↔ ∀ links owner id, p.model.ancestor? links d = some owner →
        ¬p.model.Concrete owner sub id)) ∧
    ∃ targets, p.hierarchy.virtualTargets c sub = .ok targets ∧
      (∀ id ∈ targets, ∃ e, p.hierarchy.isSubtype e c = .ok true ∧
        p.hierarchy.dispatch e sub = .ok (some id)) ∧
      (p.model.Stratified → ∀ id, id ∈ targets ↔ ∃ e, p.hierarchy.isSubtype e c = .ok true ∧
        p.hierarchy.dispatch e sub = .ok (some id)) := by
  obtain ⟨targets, htargets, hmem⟩ := exists_virtualTargets hp hc sub
  have hsound : ∀ id ∈ targets, ∃ e, p.hierarchy.isSubtype e c = .ok true ∧
      p.hierarchy.dispatch e sub = .ok (some id) := by
    intro id hid
    obtain ⟨e, hbelow, hfound⟩ := (hmem id).1 hid
    exact ⟨e, (isSubtype_iff hp (lt_of_dispatch hp hfound)).2 (above_of_below hp hbelow), hfound⟩
  refine ⟨exists_isSubtype hp hd c, exists_dispatch hp hd sub, targets, htargets, hsound, ?_⟩
  intro hm id
  refine ⟨hsound id, ?_⟩
  rintro ⟨e, hsubtype, hfound⟩
  exact (hmem id).2 ⟨e, below_of_isSubtype hp hm hsubtype, hfound⟩

/-- Two interfaces that extend each other, a class that implements one of them, and a subclass that
overrides its method. -/
def circular : Model where
  classes := #[{ name := "Main" }, { name := "Left", interfaces := [⟨2⟩], isInterface := true },
    { name := "Right", interfaces := [⟨1⟩], isInterface := true },
    { name := "Base", interfaces := [⟨1⟩] }, { name := "Derived", superclass := some ⟨3⟩ },
    { name := "Leaf", superclass := some ⟨4⟩ }]
  methods := #[
    { owner := ⟨0⟩, name := "main", subsignature := "void main()", isStatic := true,
      returnType := .void },
    { owner := ⟨1⟩, name := "run", subsignature := "void run()", isAbstract := true,
      this := some ⟨0⟩, returnType := .void },
    { owner := ⟨3⟩, name := "run", subsignature := "void run()", this := some ⟨1⟩,
      returnType := .void },
    { owner := ⟨4⟩, name := "run", subsignature := "void run()", this := some ⟨2⟩,
      returnType := .void }]
  vars := #[⟨⟨1⟩, "this", .ref ⟨1⟩⟩, ⟨⟨2⟩, "this", .ref ⟨3⟩⟩, ⟨⟨3⟩, "this", .ref ⟨4⟩⟩]
  entry := ⟨0⟩

/-- In `circular`, a leaf is a subtype of both interfaces and runs the method of the class above it,
and a call through the interface that nothing implements directly has two targets. -/
theorem circular_views_agree :
    (Program.index circular).Accepted ∧ (Program.index circular).model.Stratified ∧
    (Program.index circular).hierarchy.isSubtype ⟨5⟩ ⟨2⟩ = .ok true ∧
    Relation.ReflTransGen circular.Extends ⟨5⟩ ⟨2⟩ ∧
    (Program.index circular).hierarchy.dispatch ⟨5⟩ "void run()" = .ok (some ⟨3⟩) ∧
    circular.Nearest ⟨5⟩ "void run()" ⟨3⟩ ∧
    (Program.index circular).hierarchy.virtualTargets ⟨2⟩ "void run()" = .ok [⟨2⟩, ⟨3⟩] ∧
    ∀ id, id ∈ ([⟨2⟩, ⟨3⟩] : List MethodId) ↔
      ∃ e, (Program.index circular).hierarchy.isSubtype e ⟨2⟩ = .ok true ∧
        (Program.index circular).hierarchy.dispatch e "void run()" = .ok (some id) := by
  have hempty : circular.violations = [] := by decide +kernel
  have hp : (Program.index circular).Accepted :=
    ⟨circular, by rw [Program.ofModel, hempty]⟩
  have hm : (Program.index circular).model.Stratified := by
    constructor <;> simp [Program.index, circular]
  have hsubtype : (Program.index circular).hierarchy.isSubtype ⟨5⟩ ⟨2⟩ = .ok true := by
    decide +kernel
  have hdispatch : (Program.index circular).hierarchy.dispatch ⟨5⟩ "void run()" =
      .ok (some ⟨3⟩) := by decide +kernel
  have htargets : (Program.index circular).hierarchy.virtualTargets ⟨2⟩ "void run()" =
      .ok [⟨2⟩, ⟨3⟩] := by decide +kernel
  obtain ⟨⟨b, hb, habove⟩, ⟨found, hfound, hnearest, -⟩, targets, htargets', -, hexact⟩ :=
    views_agree hp (d := ⟨5⟩) (c := ⟨2⟩) (by decide) (by decide) "void run()"
  cases hsubtype.symm.trans hb
  cases hdispatch.symm.trans hfound
  cases htargets.symm.trans htargets'
  exact ⟨hp, hm, hsubtype, habove.1 rfl, hdispatch, (hnearest _).1 rfl, htargets, hexact hm⟩

end Program

end ObjectFlow
