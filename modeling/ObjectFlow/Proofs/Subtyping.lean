import ObjectFlow.Proofs.Hierarchy

/-!
# Supertypes and subtypes

A hierarchy can be walked upward, along superclasses and interfaces, and downward, along what is
listed under each class. The two views agree where classes and interfaces keep to their places
(`Model.Stratified`): whoever is found to be a subtype by going up is found by going down as well
(`below_of_isSubtype`).
-/

namespace ObjectFlow

/-- Superclasses are no interfaces, and what is implemented or extended as an interface is one. -/
structure Model.Stratified (m : Model) : Prop where
  superclass : ∀ d ∈ m.classes, ∀ c ∈ d.superclass, ∀ above, m.classes[c.index]? = some above →
    above.isInterface = false
  interfaces : ∀ d ∈ m.classes, ∀ c ∈ d.interfaces, ∀ above, m.classes[c.index]? = some above →
    above.isInterface = true

/-- A class or one of its supertypes, found by going up step by step. -/
def Hierarchy.Above (h : Hierarchy) : ClassId → ClassId → Prop :=
  Relation.ReflTransGen (Links h.directSupertypes)

namespace Program

variable {p : Program} {c d : ClassId}

theorem mem_of_class {decl : ClassDecl} (h : p.model.classes[c.index]? = some decl) :
    decl ∈ p.model.classes :=
  Array.mem_of_getElem? h

/-- A link upward is a link downward in the other direction. -/
theorem links_down (hp : p.Accepted) (hm : p.model.Stratified)
    (h : Links p.hierarchy.directSupertypes d c) : Links p.hierarchy.directSubtypes c d := by
  obtain ⟨decl, hdecl, hc⟩ := (links_directSupertypes_iff hp).1 h
  have hlt : c.index < p.model.classes.size := by
    rcases hc with hc | hc
    · exact hp.wellFormed.tables.superclasses decl (mem_of_class hdecl) c hc
    · exact hp.wellFormed.tables.interfaces decl (mem_of_class hdecl) c hc
  have habove := Array.getElem?_eq_getElem hlt
  refine (links_directSubtypes_iff hp).2 ⟨_, decl, habove, hdecl, ?_⟩
  rcases hc with hc | hc
  · rw [if_neg (by simp [hm.superclass decl (mem_of_class hdecl) c hc _ habove])]
    exact hc
  · rw [if_pos (hm.interfaces decl (mem_of_class hdecl) c hc _ habove)]
    exact hc

theorem below_of_above (hp : p.Accepted) (hm : p.model.Stratified) (h : p.hierarchy.Above d c) :
    p.hierarchy.Below c d := by
  induction h with
  | refl => exact .refl
  | tail _ hlink ih => exact .head (links_down hp hm hlink) ih

theorem above_of_isSubtype (h : p.hierarchy.isSubtype d c = .ok true) : p.hierarchy.Above d c := by
  unfold Hierarchy.isSubtype at h
  split at h
  · next heq =>
    rw [heq]
    exact .refl
  · obtain ⟨r, hr, h⟩ := bind_eq_ok.1 h
    obtain ⟨-, -, hreach⟩ := bind_eq_ok.1 hr
    have hc : c ∈ r.toList := Roster.contains_iff.1 (pure_eq_ok.1 h)
    refine reachFrom_induction (fun a b ha hab => ha.tail hab) hreach ?_ (by simp) c hc
    intro a ha
    obtain rfl := List.mem_singleton.1 ha
    exact .refl

/-- A subtype is found by going down. -/
theorem below_of_isSubtype (hp : p.Accepted) (hm : p.model.Stratified)
    (h : p.hierarchy.isSubtype d c = .ok true) : p.hierarchy.Below c d :=
  below_of_above hp hm (above_of_isSubtype h)

end Program

end ObjectFlow
