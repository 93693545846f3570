import Mathlib.Algebra.Order.BigOperators.Group.Finset
import Mathlib.Data.Finset.Union
import ObjectFlow.Constant.Interprocedural
import ObjectFlow.Proofs.Accepted
import ObjectFlow.Proofs.Facts

/-!
# What is known about the heap

What is known about the heap grows cell by cell (`Stored`), each time with more weight. A load sees
the least upper bound of the cells that it may read (`load?_le_iff`), so its value changes only with
one of these (`load?_congr`).
-/

namespace ObjectFlow

namespace Constant

open Std

/-! ## Cells -/

/-- A fold that meets some of the values of a list. -/
theorem foldl_le_iff {α : Type} {y : Value} {step : Value → α → Value} {P : α → Prop}
    {f : α → Value} (hstep : ∀ x a, step x a ≤ y ↔ x ≤ y ∧ (P a → f a ≤ y)) {as : List α}
    {x : Value} : as.foldl step x ≤ y ↔ x ≤ y ∧ ∀ a ∈ as, P a → f a ≤ y := by
  induction as generalizing x with
  | nil => simp
  | cons a as ih => rw [List.foldl_cons, ih, hstep, List.forall_mem_cons, and_assoc]

theorem foldl_meet_le_iff {α : Type} {y : Value} {f : α → Value} {as : List α} {x : Value} :
    as.foldl (fun acc a => acc.meet (f a)) x ≤ y ↔ x ≤ y ∧ ∀ a ∈ as, f a ≤ y := by
  have hstep : ∀ x a, Value.meet x (f a) ≤ y ↔ x ≤ y ∧ (True → f a ≤ y) := fun x a => by
    rw [← Value.sup_eq_meet, sup_le_iff, true_imp_iff]
  rw [foldl_le_iff hstep]
  simp

namespace HeapFact

variable {h h' : HeapFact} {c d : Cell} {value : Value}

theorem store?_eq_none : h.store? c value = none ↔ value ≤ h.get c := by
  unfold store?
  rw [← sup_eq_left, Value.sup_eq_meet]
  dsimp only
  split <;> simp_all

theorem get_insert (met : Value) :
    (⟨h.cells.insert c met⟩ : HeapFact).get d = if c = d then met else h.get d := by
  simp only [get, ExtTreeMap.getD_insert, LawfulEqOrd.compare_eq_iff_eq]

theorem store?_eq_some (hs : h.store? c value = some h') :
    ¬value ≤ h.get c ∧ h' = ⟨h.cells.insert c (h.get c ⊔ value)⟩ := by
  have hnot : ¬value ≤ h.get c := fun hle => by
    rw [store?_eq_none.2 hle] at hs
    cases hs
  unfold store? at hs
  dsimp only at hs
  split at hs
  · cases hs
  · cases hs
    exact ⟨hnot, rfl⟩

/-- The cells that have been stored to. -/
def support (h : HeapFact) : Finset Cell := h.cells.keys.toFinset

theorem mem_support : c ∈ h.support ↔ c ∈ h.cells := by
  rw [support, List.mem_toFinset, ExtTreeMap.mem_keys]

theorem get_of_not_mem_support (hc : c ∉ h.support) : h.get c = .unset := by
  rw [mem_support] at hc
  exact ExtTreeMap.getD_eq_fallback hc

theorem support_insert (met : Value) :
    (⟨h.cells.insert c met⟩ : HeapFact).support = insert c h.support := by
  ext d
  rw [mem_support, ExtTreeMap.mem_insert, LawfulEqOrd.compare_eq_iff_eq, Finset.mem_insert,
    mem_support, @eq_comm Cell c d]

/-- How often cells have grown. -/
def weight (h : HeapFact) : Nat := ∑ c ∈ h.support, (h.get c).height

/-- Each cell grows at most twice. -/
theorem weight_le (h : HeapFact) : h.weight ≤ 2 * h.support.card := by
  have hsum := Finset.sum_le_card_nsmul h.support (fun c => (h.get c).height) 2
    fun c _ => Value.height_le _
  exact hsum.trans (Nat.mul_comm _ 2).le

theorem weight_lt_of_store (hs : h.store? c value = some h') : h.weight < h'.weight := by
  obtain ⟨hnot, rfl⟩ := store?_eq_some hs
  -- Cells that have not been stored to add nothing, so both sums may range over the same cells.
  have hsame : h.weight = ∑ d ∈ insert c h.support, (h.get d).height := by
    refine Finset.sum_subset (Finset.subset_insert _ _) fun d _ hd => ?_
    rw [get_of_not_mem_support hd]
    rfl
  rw [hsame, weight, support_insert]
  refine Finset.sum_lt_sum (fun d _ => ?_) ⟨c, Finset.mem_insert_self _ _, ?_⟩
  · rw [get_insert]
    split
    · next hcd =>
      rw [← hcd]
      exact Value.height_mono le_sup_left
    · exact Nat.le_refl _
  · rw [get_insert, if_pos rfl]
    exact Value.height_lt (left_lt_sup.2 hnot)

end HeapFact

/-! ## Stores -/

variable {p : Program} {a : Aliasing} {h h₁ h' : HeapFact} {c : Cell} {cells : List Cell}
  {value : Value} {affected : List Node}

/-- The outcome of meeting a value into cells: cells grow, those stored to take the value in, the
loads of cells that have grown are affected, and each change adds to the weight. -/
structure Stored (p : Program) (a : Aliasing) (h : HeapFact) (cells : List Cell) (value : Value)
    (h' : HeapFact) (affected : List Node) : Prop where
  grows : ∀ c, h.get c ≤ h'.get c
  takes : ∀ c ∈ cells, value ≤ h'.get c
  changed : ∀ c, h'.get c ≠ h.get c → ∀ loads, a.loadsOf p c = .ok loads →
    ∀ site ∈ loads, Node.stmt site ∈ affected
  source : ∀ n ∈ affected, ∃ c ∈ cells, ∃ loads, a.loadsOf p c = .ok loads ∧
    ∃ site ∈ loads, n = .stmt site
  weight : h' = h ∧ affected = [] ∨ h.weight < h'.weight
  support : ∀ c ∈ h'.support, c ∈ h.support ∨ c ∈ cells

theorem stored_nil (h : HeapFact) : Stored p a h [] value h [] :=
  ⟨fun _ => le_rfl, by simp, fun _ hc => absurd rfl hc, by simp, Or.inl ⟨rfl, rfl⟩,
    fun _ hc => Or.inl hc⟩

theorem Stored.skip (hst : Stored p a h cells value h' affected) (hle : value ≤ h.get c) :
    Stored p a h (c :: cells) value h' affected := by
  refine ⟨hst.grows, fun d hd => ?_, hst.changed, fun n hn => ?_, hst.weight, fun d hd => ?_⟩
  · rcases List.mem_cons.1 hd with rfl | hd
    · exact hle.trans (hst.grows d)
    · exact hst.takes d hd
  · obtain ⟨d, hd, hrest⟩ := hst.source n hn
    exact ⟨d, List.mem_cons_of_mem _ hd, hrest⟩
  · exact (hst.support d hd).imp id (List.mem_cons_of_mem _)

theorem Stored.store {loads : List StmtId} (hs : h.store? c value = some h₁)
    (hl : a.loadsOf p c = .ok loads) (hst : Stored p a h₁ cells value h' affected) :
    Stored p a h (c :: cells) value h' (loads.map Node.stmt ++ affected) := by
  obtain ⟨-, hh₁⟩ := HeapFact.store?_eq_some hs
  have hget : ∀ d, h₁.get d = if c = d then h.get c ⊔ value else h.get d := fun d => by
    rw [hh₁, HeapFact.get_insert]
  refine ⟨fun d => LE.le.trans ?_ (hst.grows d), fun d hd => ?_,
    fun d hd loads' hl' site hsite => ?_, fun n hn => ?_, Or.inr ?_, fun d hd => ?_⟩
  · rw [hget]
    split
    · next hcd => exact hcd ▸ le_sup_left
    · exact le_rfl
  · rcases List.mem_cons.1 hd with rfl | hd
    · refine LE.le.trans ?_ (hst.grows d)
      rw [hget, if_pos rfl]
      exact le_sup_right
    · exact hst.takes d hd
  · by_cases hcd : c = d
    · subst hcd
      cases hl.symm.trans hl'
      exact List.mem_append_left _ (List.mem_map_of_mem hsite)
    · refine List.mem_append_right _ (hst.changed d ?_ loads' hl' site hsite)
      rwa [hget, if_neg hcd]
  · rcases List.mem_append.1 hn with hn | hn
    · obtain ⟨site, hsite, rfl⟩ := List.mem_map.1 hn
      exact ⟨c, List.mem_cons_self, loads, hl, site, hsite, rfl⟩
    · obtain ⟨d, hd, hrest⟩ := hst.source n hn
      exact ⟨d, List.mem_cons_of_mem _ hd, hrest⟩
  · have hlt := HeapFact.weight_lt_of_store hs
    rcases hst.weight with ⟨rfl, -⟩ | hlt'
    · exact hlt
    · exact hlt.trans hlt'
  · rcases hst.support d hd with hd | hd
    · rw [hh₁, HeapFact.support_insert, Finset.mem_insert] at hd
      rcases hd with rfl | hd
      · exact Or.inr List.mem_cons_self
      · exact Or.inl hd
    · exact Or.inr (List.mem_cons_of_mem _ hd)

/-- Cells are stored to one after the other, by steps that say what they do. -/
theorem exists_foldlM_store
    {step : HeapFact × List Node → Cell → Except Fault (HeapFact × List Node)}
    (hskip : ∀ h before c, h.store? c value = none → step (h, before) c = .ok (h, before))
    (hstore : ∀ h h₁ before c loads, h.store? c value = some h₁ → a.loadsOf p c = .ok loads →
      step (h, before) c = .ok (h₁, before ++ loads.map Node.stmt))
    (hloads : ∀ c ∈ cells, ∃ l, a.loadsOf p c = .ok l) (h : HeapFact) (before : List Node) :
    ∃ h' affected, cells.foldlM step (h, before) = .ok (h', before ++ affected) ∧
      Stored p a h cells value h' affected := by
  induction cells generalizing h before with
  | nil => exact ⟨h, [], by rw [List.append_nil]; rfl, stored_nil h⟩
  | cons c cells ih =>
    have ih := ih fun d hd => hloads d (List.mem_cons_of_mem _ hd)
    rw [List.foldlM_cons]
    cases hs : h.store? c value with
    | none =>
      obtain ⟨h', affected, heq, hst⟩ := ih h before
      exact ⟨h', affected, bind_eq_ok.2 ⟨_, hskip h before c hs, heq⟩,
        hst.skip (HeapFact.store?_eq_none.1 hs)⟩
    | some h₁ =>
      obtain ⟨loads, hl⟩ := hloads c List.mem_cons_self
      obtain ⟨h', affected, heq, hst⟩ := ih h₁ (before ++ loads.map Node.stmt)
      refine ⟨h', loads.map Node.stmt ++ affected, ?_, hst.store hs hl⟩
      rw [← List.append_assoc]
      exact bind_eq_ok.2 ⟨_, hstore h h₁ before c loads hs hl, heq⟩

theorem exists_storeAll (hloads : ∀ c ∈ cells, ∃ l, a.loadsOf p c = .ok l) (h : HeapFact)
    (value : Value) : ∃ h' affected, storeAll p a h cells value = .ok (h', affected) ∧
      Stored p a h cells value h' affected := by
  unfold storeAll
  refine exists_foldlM_store (fun h before c hs => ?_) (fun h h₁ before c loads hs hl => ?_) hloads
    h []
  · simp only [hs]
    rfl
  · simp only [hs]
    exact bind_eq_ok.2 ⟨loads, hl, rfl⟩

/-- A value that the cells have taken in already changes nothing. -/
theorem storeAll_of_le (hle : ∀ c ∈ cells, value ≤ h.get c) :
    storeAll p a h cells value = .ok (h, []) := by
  unfold storeAll
  induction cells with
  | nil => rfl
  | cons c cells ih =>
    simp only [List.foldlM_cons, HeapFact.store?_eq_none.2 (hle c List.mem_cons_self)]
    exact ih fun d hd => hle d (List.mem_cons_of_mem _ hd)

/-! ## Loads -/

/-- The cells that a statement may load from, under what is known about its index. -/
inductive Reads (a : Aliasing) (fact : ConstFact) : Stmt → Cell → Prop
  | static (lhs : VarId) (f : FieldId) :
      Reads a fact (.loadField lhs ⟨none, f⟩) (.staticField f)
  | field {lhs base : VarId} {f : FieldId} {o : ObjId} : o ∈ a.pointsTo base →
      Reads a fact (.loadField lhs ⟨some base, f⟩) (.instanceField o f)
  | element {lhs base index : VarId} {o : ObjId} {i : Value} : o ∈ a.pointsTo base →
      i.mayAlias (fact.get index) = true →
      Reads a fact (.loadArray lhs base index) (.element o i)

theorem elements_le_iff {arrays : ObjectSet} {index y : Value} :
    h.elements arrays index ≤ y ↔
      ∀ o ∈ arrays, ∀ i, i.mayAlias index = true → h.get (.element o i) ≤ y := by
  unfold HeapFact.elements
  rw [ExtTreeMap.foldl_eq_foldl_toList, foldl_le_iff (f := fun e : Cell × Value => e.2)
    (P := fun e => ∃ o i, e.1 = .element o i ∧ o ∈ arrays ∧ i.mayAlias index = true)]
  · simp only [Value.unset_le, true_and]
    constructor
    · intro hall o ho i hi
      rw [HeapFact.get, ExtTreeMap.getD_eq_getD_getElem?]
      cases hc : h.cells[Cell.element o i]? with
      | none => exact Value.unset_le _
      | some value =>
        exact hall (_, value) (ExtTreeMap.mem_toList_iff_getElem?_eq_some.2 hc)
          ⟨o, i, rfl, ho, hi⟩
    · rintro hall ⟨c, value⟩ hc ⟨o, i, rfl, ho, hi⟩
      have hle := hall o ho i hi
      rwa [HeapFact.get, ExtTreeMap.getD_eq_getD_getElem?,
        ExtTreeMap.mem_toList_iff_getElem?_eq_some.1 hc] at hle
  · rintro x ⟨c, value⟩
    cases c with
    | staticField f => simp
    | instanceField o f => simp
    | element o i =>
      by_cases hoi : o ∈ arrays ∧ i.mayAlias index = true
      · simp [hoi, ← Value.sup_eq_meet]
      · simp only [if_neg hoi, Cell.element.injEq]
        refine (and_iff_left ?_).symm
        rintro ⟨o', i', ⟨rfl, rfl⟩, hoi'⟩
        exact absurd hoi' hoi

/-- A load yields the least upper bound of the cells that it may read. -/
theorem load?_le_iff {fact : ConstFact} {s : Stmt} {y : Value}
    (hv : a.load? h fact s = some value) :
    value ≤ y ↔ ∀ c, Reads a fact s c → h.get c ≤ y := by
  unfold Aliasing.load? at hv
  split at hv
  · cases hv
    exact ⟨fun hle c hc => by cases hc; exact hle, fun hall => hall _ (.static _ _)⟩
  · cases hv
    rw [ExtTreeSet.foldl_eq_foldl_toList,
      foldl_meet_le_iff (f := fun o => h.get (.instanceField o _))]
    simp only [Value.unset_le, true_and, ExtTreeSet.mem_toList]
    exact ⟨fun hall c hc => by cases hc with | field ho => exact hall _ ho,
      fun hall o ho => hall _ (.field ho)⟩
  · cases hv
    rw [elements_le_iff]
    exact ⟨fun hall c hc => by cases hc with | element ho hi => exact hall _ ho _ hi,
      fun hall o ho i hi => hall _ (.element ho hi)⟩
  · cases hv

/-- Heaps that agree on what a statement reads let it load the same value. -/
theorem load?_congr {fact : ConstFact} {s : Stmt}
    (hget : ∀ c, Reads a fact s c → h'.get c = h.get c) :
    a.load? h' fact s = a.load? h fact s := by
  have hsome : (a.load? h' fact s).isSome = (a.load? h fact s).isSome := by
    unfold Aliasing.load?
    split <;> rfl
  cases hv : a.load? h fact s with
  | none => rw [hv] at hsome; exact Option.isNone_iff_eq_none.1 (by simpa using hsome)
  | some value =>
    rw [hv] at hsome
    obtain ⟨value', hv'⟩ := Option.isSome_iff_exists.1 hsome
    rw [hv', Option.some.injEq]
    refine eq_of_forall_ge_iff fun y => ?_
    rw [load?_le_iff hv, load?_le_iff hv']
    exact forall₂_congr fun c hc => by rw [hget c hc]

end Constant

end ObjectFlow
