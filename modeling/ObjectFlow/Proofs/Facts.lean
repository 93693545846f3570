import Mathlib.Algebra.BigOperators.Group.Finset.Basic
import Mathlib.Algebra.Order.BigOperators.Group.Finset
import Mathlib.Order.Lattice
import Mathlib.Order.BoundedOrder.Basic
import ObjectFlow.Constant.Fact

/-!
# The order of values and facts

Values are ordered by how little is known: `unset` is below every constant, and every constant is
below `nac`. Meeting two values gives their least upper bound, and facts are ordered and meet
variable by variable. Along a chain of growing facts a variable changes at most twice
(`ConstFact.height`), which bounds the length of the chain.

A value admits a number if the number is one that the value stands for (`Value.Admits`).
-/

namespace ObjectFlow

/-! ## Values -/

namespace Value

@[simp] theorem meet_unset (a : Value) : a.meet unset = a := by cases a <;> rfl

@[simp] theorem unset_meet (a : Value) : unset.meet a = a := by cases a <;> rfl

@[simp] theorem meet_nac (a : Value) : a.meet nac = nac := by cases a <;> rfl

@[simp] theorem nac_meet (a : Value) : nac.meet a = nac := by cases a <;> rfl

theorem meet_self (a : Value) : a.meet a = a := by cases a <;> simp [meet]

theorem meet_comm (a b : Value) : a.meet b = b.meet a := by
  cases a <;> cases b <;> simp only [meet]
  next m n =>
    by_cases h : m = n
    · subst h
      rfl
    · rw [if_neg h, if_neg (Ne.symm h)]

theorem meet_assoc (a b c : Value) : (a.meet b).meet c = a.meet (b.meet c) := by
  cases a with
  | unset => simp
  | nac => simp
  | const l =>
    cases b with
    | unset => simp
    | nac => simp
    | const m =>
      cases c with
      | unset => simp
      | nac => simp
      | const n =>
        by_cases hlm : l = m <;> by_cases hmn : m = n <;> simp_all [meet]

instance : Max Value := ⟨meet⟩

instance : SemilatticeSup Value := SemilatticeSup.mk' meet_comm meet_assoc meet_self

theorem sup_eq_meet (a b : Value) : a ⊔ b = a.meet b := rfl

theorem le_iff_meet {a b : Value} : a ≤ b ↔ a.meet b = b := sup_eq_right.symm

instance : OrderBot Value where
  bot := unset
  bot_le a := le_iff_meet.2 (unset_meet a)

theorem unset_le (a : Value) : unset ≤ a := bot_le

theorem le_nac (a : Value) : a ≤ nac := le_iff_meet.2 (meet_nac a)

theorem nac_le {a : Value} : nac ≤ a ↔ a = nac := by
  rw [le_iff_meet, nac_meet, eq_comm]

theorem le_unset {a : Value} : a ≤ unset ↔ a = unset := by
  rw [le_iff_meet, meet_unset]

theorem const_le {n : Int32} {a : Value} : const n ≤ a ↔ a = nac ∨ a = const n := by
  cases a with
  | unset => simp [le_unset]
  | nac => simp [le_nac]
  | const m => by_cases h : n = m <;> simp [le_iff_meet, meet, h, eq_comm]

/-- The value stands for the number, among others perhaps. -/
def Admits (a : Value) (n : Int32) : Prop := a = nac ∨ a = const n

theorem admits_iff {a : Value} {n : Int32} : a.Admits n ↔ const n ≤ a := const_le.symm

theorem Admits.mono {a b : Value} {n : Int32} (h : a.Admits n) (hab : a ≤ b) : b.Admits n :=
  admits_iff.2 ((admits_iff.1 h).trans hab)

theorem Admits.ne_unset {a : Value} {n : Int32} (h : a.Admits n) : a ≠ unset := by
  rintro rfl
  rcases h with h | h <;> cases h

theorem admits_nac (n : Int32) : nac.Admits n := Or.inl rfl

theorem admits_const (n : Int32) : (const n).Admits n := Or.inr rfl

/-- How often a value may have grown. -/
def height : Value → Nat
  | unset => 0
  | const _ => 1
  | nac => 2

theorem height_le (a : Value) : a.height ≤ 2 := by cases a <;> simp [height]

theorem height_lt {a b : Value} (h : a < b) : a.height < b.height := by
  obtain ⟨hle, hne⟩ := lt_iff_le_and_ne.1 h
  cases a with
  | unset => cases b <;> simp_all [height]
  | nac => exact absurd (nac_le.1 hle).symm hne
  | const n =>
    rcases const_le.1 hle with rfl | rfl
    · exact Nat.one_lt_two
    · exact absurd rfl hne

theorem height_mono {a b : Value} (h : a ≤ b) : a.height ≤ b.height := by
  rcases eq_or_lt_of_le h with rfl | h
  · rfl
  · exact (height_lt h).le

end Value

/-! ## Facts -/

namespace ConstFact

/-- What a list of bindings does when it is met into a fact: its keys are distinct, so each variable
is met at most once. -/
theorem get_foldl_update {bindings : List (VarId × Value)} (v : VarId)
    (hd : bindings.Pairwise fun a b => a.1 ≠ b.1) (t : ConstFact) :
    (∀ value, (v, value) ∈ bindings →
        (bindings.foldl (fun t (v, value) => t.update v ((t.get v).meet value)) t).get v =
          (t.get v).meet value) ∧
      ((∀ value, (v, value) ∉ bindings) →
        (bindings.foldl (fun t (v, value) => t.update v ((t.get v).meet value)) t).get v =
          t.get v) := by
  induction bindings generalizing t with
  | nil => simp
  | cons b bindings ih =>
    obtain ⟨w, x⟩ := b
    obtain ⟨hw, hd⟩ := List.pairwise_cons.1 hd
    obtain ⟨ihmem, ihnot⟩ := ih hd (t.update w ((t.get w).meet x))
    rw [List.foldl_cons]
    by_cases hvw : w = v
    · subst hvw
      have hrest : ∀ value, (w, value) ∉ bindings := fun value hmem => hw _ hmem rfl
      refine ⟨fun value hmem => ?_, fun hnot => absurd List.mem_cons_self (hnot x)⟩
      rcases List.mem_cons.1 hmem with heq | hmem
      · cases heq
        rw [ihnot hrest, get_update, if_pos rfl]
      · exact absurd hmem (hrest value)
    · rw [get_update, if_neg hvw] at ihmem ihnot
      refine ⟨fun value hmem => ?_, fun hnot => ?_⟩
      · rcases List.mem_cons.1 hmem with heq | hmem
        · cases heq
          exact absurd rfl hvw
        · exact ihmem value hmem
      · exact ihnot fun value hmem => hnot value (List.mem_cons_of_mem _ hmem)

/-- Facts meet variable by variable. -/
theorem get_meet (f g : ConstFact) (v : VarId) : (f.meet g).get v = (f.get v).meet (g.get v) := by
  have hd : f.toList.Pairwise fun a b => a.1 ≠ b.1 := by
    refine Std.ExtTreeMap.distinct_keys_toList.imp fun hab he => hab ?_
    rw [he]
    exact Std.ReflOrd.compare_self
  obtain ⟨hmem, hnot⟩ := get_foldl_update v hd g
  have hlist : ∀ value, (v, value) ∈ f.toList ↔ f.bindings[v]? = some value := fun value =>
    Std.ExtTreeMap.mem_toList_iff_getElem?_eq_some
  simp only [hlist, getElem?_bindings] at hmem hnot
  rw [Value.meet_comm]
  by_cases h : f.get v = .unset
  · rw [h, Value.meet_unset]
    exact hnot fun value hv => by simp [h] at hv
  · exact hmem _ (by rw [if_neg h])

instance : PartialOrder ConstFact where
  le f g := ∀ v, f.get v ≤ g.get v
  le_refl f v := le_rfl
  le_trans f g h hfg hgh v := (hfg v).trans (hgh v)
  le_antisymm f g hfg hgf := ext fun v => le_antisymm (hfg v) (hgf v)

instance : SemilatticeSup ConstFact where
  sup := meet
  le_sup_left f g v := by
    rw [get_meet]
    exact le_sup_left
  le_sup_right f g v := by
    rw [get_meet]
    exact le_sup_right
  sup_le f g h hf hg v := by
    rw [get_meet]
    exact sup_le (hf v) (hg v)

theorem sup_eq_meet (f g : ConstFact) : f ⊔ g = f.meet g := rfl

theorem get_sup (f g : ConstFact) (v : VarId) : (f ⊔ g).get v = f.get v ⊔ g.get v := get_meet f g v

theorem empty_le (f : ConstFact) : ∅ ≤ f := fun v => by
  rw [get_empty]
  exact Value.unset_le _

theorem update_le_update {f g : ConstFact} {x y : Value} (hfg : f ≤ g) (hxy : x ≤ y) (v : VarId) :
    f.update v x ≤ g.update v y := by
  intro w
  rw [get_update, get_update]
  split
  · exact hxy
  · exact hfg w

theorem le_update_nac (f : ConstFact) (v : VarId) : f ≤ f.update v .nac := by
  intro w
  rw [get_update]
  split
  · exact Value.le_nac _
  · exact le_rfl

theorem remove_le (f : ConstFact) (v : VarId) : f.remove v ≤ f := by
  intro w
  rw [get_remove]
  split
  · exact Value.unset_le _
  · exact le_rfl

/-! ## Heights -/

/-- Only the first `n` variables have a value. -/
def Within (n : Nat) (f : ConstFact) : Prop := ∀ v, f.get v ≠ .unset → v.index < n

/-- How often the first `n` variables may have grown. -/
def height (n : Nat) (f : ConstFact) : Nat := ∑ i ∈ Finset.range n, (f.get ⟨i⟩).height

variable {n : Nat} {f g : ConstFact}

theorem within_empty : Within n ∅ := fun v h => absurd (get_empty v) h

theorem Within.sup (hf : f.Within n) (hg : g.Within n) : (f ⊔ g).Within n := by
  intro v hv
  by_cases h : f.get v = .unset
  · refine hg v fun hg => hv ?_
    rw [get_sup, h, hg]
    rfl
  · exact hf v h

theorem Within.update (hf : f.Within n) {v : VarId} (hv : v.index < n) (value : Value) :
    (f.update v value).Within n := by
  intro w hw
  rw [get_update] at hw
  split at hw
  · next h => exact h ▸ hv
  · exact hf w hw

theorem Within.remove (hf : f.Within n) (v : VarId) : (f.remove v).Within n := by
  intro w hw
  rw [get_remove] at hw
  split at hw
  · exact absurd rfl hw
  · exact hf w hw

theorem height_le (n : Nat) (f : ConstFact) : f.height n ≤ 2 * n := by
  have h := Finset.sum_le_card_nsmul (Finset.range n) (fun i => (f.get ⟨i⟩).height) 2
    fun i _ => Value.height_le _
  rw [Finset.card_range] at h
  exact h.trans (Nat.mul_comm n 2).le

/-- A growing fact gets higher. -/
theorem height_lt (hg : g.Within n) (h : f < g) : f.height n < g.height n := by
  obtain ⟨hle, hne⟩ := lt_iff_le_and_ne.1 h
  obtain ⟨v, hv⟩ : ∃ v, f.get v ≠ g.get v := by
    by_contra hall
    exact hne (ext fun v => by_contra fun hv => hall ⟨v, hv⟩)
  have hlt : f.get v < g.get v := lt_of_le_of_ne (hle v) hv
  have hset : g.get v ≠ .unset := fun hu => by
    rw [hu] at hlt
    exact not_lt_bot hlt
  exact Finset.sum_lt_sum (fun i _ => Value.height_mono (hle ⟨i⟩))
    ⟨v.index, Finset.mem_range.2 (hg v hset), Value.height_lt hlt⟩

end ConstFact

end ObjectFlow
