import Mathlib.Data.List.Basic
import Mathlib.Data.List.Perm.Subperm
import ObjectFlow.Proofs.Completeness

/-!
# What the metrics count

Each of the seven metrics counts the findings of one aspect: `exists_listing` lists them, each once.
So a run that has found less has smaller metrics (`count_le_of_stores`), and since different
findings resolve to different facts, so has a run whose findings are known to another one under
other numbers (`count_le_of_shows`).
-/

namespace ObjectFlow.PointsTo

/-- What a metric is about. -/
inductive Aspect
  | reachable | call | pointer | flow | object | context | holds
deriving DecidableEq, Repr

/-- What a finding is about. -/
def Finding.aspect : Finding → Aspect
  | .context _ => .context
  | .object _ => .object
  | .pointer _ => .pointer
  | .reachable _ => .reachable
  | .call _ => .call
  | .flow .. => .flow
  | .holds .. => .holds

/-- The metric of an aspect. -/
def Metrics.count (m : Metrics) : Aspect → Nat
  | .reachable => m.reachableMethods
  | .call => m.callEdges
  | .pointer => m.pointers
  | .flow => m.flowEdges
  | .object => m.objects
  | .context => m.contexts
  | .holds => m.facts

theorem Metrics.eq_of_count {m n : Metrics} (h : ∀ k, m.count k = n.count k) : m = n := by
  obtain ⟨_, _, _, _, _, _, _⟩ := m
  obtain ⟨_, _, _, _, _, _, _⟩ := n
  have h₁ := h .reachable
  have h₂ := h .call
  have h₃ := h .pointer
  have h₄ := h .flow
  have h₅ := h .object
  have h₆ := h .context
  have h₇ := h .holds
  simp only [count] at h₁ h₂ h₃ h₄ h₅ h₆ h₇
  simp [*]

/-! ## Listing the contents of an arena -/

section Facts

/-- The entries of a list of sets, each with the place of its set counted from `k`. -/
def entriesFrom (k : Nat) (sets : List ObjectSet) : List (PointerId × ObjId) :=
  (sets.zipIdx k).flatMap fun (set, i) => set.toList.map fun o => (⟨i⟩, o)

theorem mem_entriesFrom {k : Nat} {sets : List ObjectSet} {i : PointerId} {o : ObjId} :
    (i, o) ∈ entriesFrom k sets ↔ k ≤ i.index ∧ ∃ set, sets[i.index - k]? = some set ∧ o ∈ set := by
  obtain ⟨i⟩ := i
  simp only [entriesFrom, List.mem_flatMap, Prod.exists, List.mk_mem_zipIdx_iff_le_and_getElem?_sub,
    List.mem_map, Prod.mk.injEq, Std.ExtTreeSet.mem_toList]
  constructor
  · rintro ⟨set, j, ⟨hk, hset⟩, o', ho, hj, rfl⟩
    cases hj
    exact ⟨hk, set, hset, ho⟩
  · rintro ⟨hk, set, hset, ho⟩
    exact ⟨set, i, ⟨hk, hset⟩, o, ho, rfl, rfl⟩

theorem entriesFrom_cons (k : Nat) (set : ObjectSet) (sets : List ObjectSet) :
    entriesFrom k (set :: sets) =
      (set.toList.map fun o => ((⟨k⟩ : PointerId), o)) ++ entriesFrom (k + 1) sets := by
  simp [entriesFrom, List.zipIdx_cons]

theorem nodup_toList (set : ObjectSet) : set.toList.Nodup :=
  Std.ExtTreeSet.distinct_toList.imp fun hne heq => hne (Std.LawfulEqOrd.compare_eq_iff_eq.2 heq)

theorem nodup_entriesFrom (k : Nat) (sets : List ObjectSet) : (entriesFrom k sets).Nodup := by
  induction sets generalizing k with
  | nil => exact List.nodup_nil
  | cons set sets ih =>
    rw [entriesFrom_cons, List.nodup_append']
    refine ⟨?_, ih (k + 1), ?_⟩
    · exact (nodup_toList set).map fun _ _ h => (Prod.mk.inj h).2
    · rintro ⟨i, o⟩ hhead htail
      obtain ⟨o', -, heq⟩ := List.mem_map.1 hhead
      have hle := (mem_entriesFrom.1 htail).1
      rw [← (Prod.mk.inj heq).1] at hle
      exact Nat.not_succ_le_self k hle

theorem foldl_size_eq (k n : Nat) (sets : List ObjectSet) :
    sets.foldl (fun n set => n + set.size) n = n + (entriesFrom k sets).length := by
  induction sets generalizing k n with
  | nil => rfl
  | cons set sets ih =>
    rw [List.foldl_cons, ih (k + 1), entriesFrom_cons, List.length_append, List.length_map,
      Std.ExtTreeSet.length_toList, Nat.add_assoc]

/-- The facts of an arena can be listed, and `factCount` says how many there are. -/
theorem exists_factListing (a : Arena) :
    ∃ l : List (PointerId × ObjId), l.Nodup ∧ l.length = a.factCount ∧
      ∀ i o, (i, o) ∈ l ↔ o ∈ a.objectsOf i := by
  refine ⟨entriesFrom 0 a.sets.toList, nodup_entriesFrom 0 _, ?_, fun i o => ?_⟩
  · rw [Arena.factCount, ← Array.foldl_toList, foldl_size_eq 0 0, Nat.zero_add]
  · rw [mem_entriesFrom, Nat.sub_zero, Array.getElem?_toList, Arena.objectsOf]
    cases a.sets[i.index]? with
    | none => simp
    | some set => simp

/-- The numbers of a table can be listed. -/
theorem exists_idListing (kind : Kind) (n : Nat) :
    ∃ l : List (Id kind), l.Nodup ∧ l.length = n ∧ ∀ i, i ∈ l ↔ i.index < n := by
  refine ⟨(List.range n).map Id.mk, List.nodup_range.map fun _ _ h => Id.mk.inj h, by simp,
    fun i => ?_⟩
  obtain ⟨i⟩ := i
  simp

theorem exists_get?_iff_lt {α : Type} [Keyed α] {r : Roster α} {i : Nat} :
    (∃ a, r.get? i = some a) ↔ i < r.size := by
  constructor
  · rintro ⟨a, h⟩
    exact (Array.getElem?_eq_some_iff.1 h).1
  · intro h
    exact ⟨_, Array.getElem?_eq_getElem h⟩

end Facts

/-! ## Listing findings -/

namespace State

/-- A finding that is more than pending. -/
def Stores (s : State) : Finding → Prop
  | .holds i o => o ∈ s.arena.objectsOf i
  | r => s.Finds r

variable {s t : State}

theorem Stores.finds {r : Finding} (h : s.Stores r) : s.Finds r := by
  cases r with
  | holds i o => exact Or.inl h
  | _ => exact h

/-- The findings of an aspect can be listed, and its metric says how many there are. -/
theorem exists_listing (s : State) (k : Aspect) :
    ∃ l : List Finding, l.Nodup ∧ l.length = s.metrics.count k ∧
      ∀ r, r ∈ l ↔ s.Stores r ∧ r.aspect = k := by
  -- It is enough to list the numbers from which the findings of the aspect are made.
  have key : ∀ {α : Type} (make : α → Finding) (l : List α), Function.Injective make → l.Nodup →
      l.length = s.metrics.count k →
      (∀ r, (∃ a ∈ l, make a = r) ↔ s.Stores r ∧ r.aspect = k) →
      ∃ l : List Finding, l.Nodup ∧ l.length = s.metrics.count k ∧
        ∀ r, r ∈ l ↔ s.Stores r ∧ r.aspect = k := fun make l hinj hnodup hlength hmem =>
    ⟨l.map make, hnodup.map hinj, by rw [List.length_map, hlength],
      fun r => by rw [List.mem_map, hmem]⟩
  cases k with
  | reachable =>
    refine key .reachable s.calls.reachable.toList (fun _ _ h => Finding.reachable.inj h)
      (Roster.nodup_toList _) rfl fun r => ?_
    cases r <;> simp [Finding.aspect, Stores, Finds]
  | call =>
    refine key .call s.calls.edges.toList (fun _ _ h => Finding.call.inj h)
      (Roster.nodup_toList _) rfl fun r => ?_
    cases r <;> simp [Finding.aspect, Stores, Finds]
  | flow =>
    refine key (fun e => .flow e.1 e.2) s.flow.edges.toList
      (fun a b h => Prod.ext (Finding.flow.inj h).1 (Finding.flow.inj h).2)
      (Roster.nodup_toList _) rfl fun r => ?_
    cases r <;> simp [Finding.aspect, Stores, Finds, HasFlow]
  | context =>
    obtain ⟨l, hnodup, hlength, hmem⟩ := exists_idListing .contexts s.arena.contexts.size
    refine key .context l (fun _ _ h => Finding.context.inj h) hnodup hlength fun r => ?_
    cases r <;> simp [Finding.aspect, Stores, Finds, hmem, Arena.context_eq_ok, exists_get?_iff_lt]
  | object =>
    obtain ⟨l, hnodup, hlength, hmem⟩ := exists_idListing .objects s.arena.objects.size
    refine key .object l (fun _ _ h => Finding.object.inj h) hnodup hlength fun r => ?_
    cases r <;> simp [Finding.aspect, Stores, Finds, hmem, Arena.object_eq_ok, exists_get?_iff_lt]
  | pointer =>
    obtain ⟨l, hnodup, hlength, hmem⟩ := exists_idListing .pointers s.arena.pointers.size
    refine key .pointer l (fun _ _ h => Finding.pointer.inj h) hnodup hlength fun r => ?_
    cases r <;> simp [Finding.aspect, Stores, Finds, hmem, Arena.pointer_eq_ok, exists_get?_iff_lt]
  | holds =>
    obtain ⟨l, hnodup, hlength, hmem⟩ := exists_factListing s.arena
    refine key (fun x => .holds x.1 x.2) l
      (fun a b h => Prod.ext (Finding.holds.inj h).1 (Finding.holds.inj h).2) hnodup hlength
      fun r => ?_
    cases r <;> simp [Finding.aspect, Stores, Finds, hmem]

/-! ## Comparing metrics -/

/-- Who stores more has larger metrics. -/
theorem count_le_of_stores {k : Aspect} (h : ∀ r, r.aspect = k → s.Stores r → t.Stores r) :
    s.metrics.count k ≤ t.metrics.count k := by
  obtain ⟨l, hnodup, hlength, hmem⟩ := s.exists_listing k
  obtain ⟨l', -, hlength', hmem'⟩ := t.exists_listing k
  rw [← hlength, ← hlength']
  refine (List.subperm_of_subset hnodup fun r hr => ?_).length_le
  obtain ⟨hs, hk⟩ := (hmem r).1 hr
  exact (hmem' r).2 ⟨h r hk hs, hk⟩

theorem count_lt_of_stores {k : Aspect} (h : ∀ r, r.aspect = k → s.Stores r → t.Stores r)
    {r : Finding} (hr : r.aspect = k) (ht : t.Stores r) (hs : ¬s.Stores r) :
    s.metrics.count k < t.metrics.count k := by
  obtain ⟨l, hnodup, hlength, hmem⟩ := s.exists_listing k
  obtain ⟨l', -, hlength', hmem'⟩ := t.exists_listing k
  rw [← hlength, ← hlength']
  have hnew : r ∉ l := fun hl => hs ((hmem r).1 hl).1
  have hsub : r :: l ⊆ l' := by
    intro r' hr'
    rcases List.mem_cons.1 hr' with rfl | hr'
    · exact (hmem' r').2 ⟨ht, hr⟩
    · obtain ⟨hs', hk⟩ := (hmem r').1 hr'
      exact (hmem' r').2 ⟨h r' hk hs', hk⟩
  exact (List.subperm_of_subset (List.nodup_cons.2 ⟨hnew, hnodup⟩) hsub).length_le

/-- A list is no longer than another one to whose members its own are related one to one. -/
theorem length_le_of_related {α β : Type} {R : α → β → Prop} {l : List α} {l' : List β}
    (hnodup : l.Nodup) (hrel : ∀ a ∈ l, ∃ b ∈ l', R a b)
    (hinj : ∀ {a a' b}, R a b → R a' b → a = a') : l.length ≤ l'.length := by
  classical
  induction l generalizing l' with
  | nil => exact Nat.zero_le _
  | cons a l ih =>
    obtain ⟨ha, hnodup⟩ := List.nodup_cons.1 hnodup
    obtain ⟨b, hb, hab⟩ := hrel a List.mem_cons_self
    have hle : l.length ≤ (l'.erase b).length := by
      refine ih hnodup fun a' ha' => ?_
      obtain ⟨b', hb', hab'⟩ := hrel a' (List.mem_cons_of_mem a ha')
      refine ⟨b', (List.mem_erase_of_ne fun heq => ha ?_).2 hb', hab'⟩
      rw [hinj hab (heq ▸ hab')]
      exact ha'
    rw [List.length_erase_of_mem hb] at hle
    have hpos := List.length_pos_of_mem hb
    rw [List.length_cons]
    omega

theorem Resolves.aspect_eq {a b : Arena} {r r' : Finding} {f : Fact} (h : Resolves a r f)
    (h' : Resolves b r' f) : r.aspect = r'.aspect := by
  cases h <;> cases h' <;> rfl

/-- Who can show whatever another one stores has larger metrics, whatever the numbers are. -/
theorem count_le_of_shows {k : Aspect}
    (h : ∀ r, s.Stores r → ∃ f r', Resolves s.arena r f ∧ t.Stores r' ∧ Resolves t.arena r' f) :
    s.metrics.count k ≤ t.metrics.count k := by
  obtain ⟨l, hnodup, hlength, hmem⟩ := s.exists_listing k
  obtain ⟨l', -, hlength', hmem'⟩ := t.exists_listing k
  rw [← hlength, ← hlength']
  refine length_le_of_related
    (R := fun r r' => ∃ f, Resolves s.arena r f ∧ Resolves t.arena r' f) hnodup (fun r hr => ?_) ?_
  · obtain ⟨hs, hk⟩ := (hmem r).1 hr
    obtain ⟨f, r', hf, ht, hf'⟩ := h r hs
    exact ⟨r', (hmem' r').2 ⟨ht, (Resolves.aspect_eq hf' hf).trans hk⟩, f, hf, hf'⟩
  · rintro r r' u ⟨f, hf, hu⟩ ⟨g, hg, hu'⟩
    obtain rfl := hu.unique hu'
    exact hf.inj hg

end State

end ObjectFlow.PointsTo
