import ObjectFlow.Proofs.Reading

/-!
# Lists of computations that may fail

Mapping, folding and filtering with a function that may fail succeeds if the function succeeds on
each member of the list, and then finds what the function finds.
-/

namespace ObjectFlow

variable {α β : Type} {f : α → Except Fault β} {as : List α} {bs : List β}

theorem exists_mapM (h : ∀ a ∈ as, ∃ b, f a = .ok b) : ∃ bs, as.mapM f = .ok bs := by
  induction as with
  | nil => exact ⟨[], rfl⟩
  | cons a as ih =>
    obtain ⟨b, hb⟩ := h a List.mem_cons_self
    obtain ⟨bs, hbs⟩ := ih fun a' ha' => h a' (List.mem_cons_of_mem _ ha')
    exact ⟨b :: bs, mapM_eq_ok.2 (.cons hb (mapM_eq_ok.1 hbs))⟩

theorem mem_of_mapM (h : as.mapM f = .ok bs) {b : β} : b ∈ bs ↔ ∃ a ∈ as, f a = .ok b := by
  induction as generalizing bs with
  | nil =>
    obtain rfl := pure_eq_ok.1 h
    simp
  | cons a as ih =>
    obtain ⟨b', bs', hab, hbs, rfl⟩ := List.forall₂_cons_left_iff.1 (mapM_eq_ok.1 h)
    rw [List.mem_cons, ih (mapM_eq_ok.2 hbs)]
    constructor
    · rintro (rfl | ⟨a', ha', hb⟩)
      · exact ⟨a, List.mem_cons_self, hab⟩
      · exact ⟨a', List.mem_cons_of_mem _ ha', hb⟩
    · rintro ⟨a', ha', hb⟩
      rcases List.mem_cons.1 ha' with rfl | ha'
      · rw [hab] at hb
        cases hb
        exact Or.inl rfl
      · exact Or.inr ⟨a', ha', hb⟩

theorem exists_bind {x : Except Fault α} {f : α → Except Fault β} {P : β → Prop} {a : α}
    (hx : x = .ok a) (hf : ∃ b, f a = .ok b ∧ P b) : ∃ b, (x >>= f) = .ok b ∧ P b :=
  hf.imp fun _ h => ⟨bind_eq_ok.2 ⟨a, hx, h.1⟩, h.2⟩

/-- Lists that are found one after the other make up one list. -/
theorem exists_flatten_mapM {f : α → Except Fault (List β)} {P : α → β → Prop}
    (h : ∀ a ∈ as, ∃ bs, f a = .ok bs ∧ ∀ b, b ∈ bs ↔ P a b) :
    ∃ bs, (as.mapM f >>= fun lists => pure lists.flatten) = .ok bs ∧
      ∀ b, b ∈ bs ↔ ∃ a ∈ as, P a b := by
  obtain ⟨lists, hlists⟩ := exists_mapM fun a ha => (h a ha).imp fun _ => And.left
  refine exists_bind hlists ⟨_, rfl, fun b => ?_⟩
  simp only [List.mem_flatten, mem_of_mapM hlists]
  constructor
  · rintro ⟨bs, ⟨a, ha, hbs⟩, hb⟩
    obtain ⟨bs', hbs', hmem⟩ := h a ha
    rw [hbs] at hbs'
    cases hbs'
    exact ⟨a, ha, (hmem b).1 hb⟩
  · rintro ⟨a, ha, hb⟩
    obtain ⟨bs, hbs, hmem⟩ := h a ha
    exact ⟨bs, ⟨a, ha, hbs⟩, (hmem b).2 hb⟩

/-- A fold succeeds if each step does, under an invariant of what is left and what has been found.
-/
theorem exists_foldlM {f : β → α → Except Fault β} (I : List α → β → Prop)
    (hstep : ∀ {a rest b}, I (a :: rest) b → ∃ b', f b a = .ok b' ∧ I rest b') {b : β}
    (h : I as b) : ∃ r, as.foldlM f b = .ok r ∧ I [] r := by
  induction as generalizing b with
  | nil => exact ⟨b, rfl, h⟩
  | cons a as ih =>
    obtain ⟨b', hb', h'⟩ := hstep h
    obtain ⟨r, hr, hI⟩ := ih h'
    exact ⟨r, by rw [List.foldlM_cons]; exact bind_eq_ok.2 ⟨b', hb', hr⟩, hI⟩

theorem exists_filterAuxM {f : α → Except Fault Bool} (h : ∀ a ∈ as, ∃ b, f a = .ok b)
    (found : List α) :
    ∃ r, as.filterAuxM f found = .ok r ∧ ∀ a, a ∈ r ↔ a ∈ as ∧ f a = .ok true ∨ a ∈ found := by
  induction as generalizing found with
  | nil => exact ⟨found, rfl, by simp⟩
  | cons a as ih =>
    obtain ⟨b, hb⟩ := h a List.mem_cons_self
    obtain ⟨r, hr, hmem⟩ := ih (fun a' ha' => h a' (List.mem_cons_of_mem _ ha'))
      (if b then a :: found else found)
    refine ⟨r, bind_eq_ok.2 ⟨b, hb, by cases b <;> exact hr⟩, fun a' => ?_⟩
    rw [hmem, List.mem_cons]
    cases b with
    | true => grind
    | false => grind

theorem exists_filterM {f : α → Except Fault Bool} {P : α → Prop}
    (h : ∀ a ∈ as, ∃ b, f a = .ok b ∧ (b = true ↔ P a)) :
    ∃ r, as.filterM f = .ok r ∧ ∀ a, a ∈ r ↔ a ∈ as ∧ P a := by
  obtain ⟨r, hr, hmem⟩ := exists_filterAuxM (f := f) (fun a ha => by
    obtain ⟨b, hb, -⟩ := h a ha
    exact ⟨b, hb⟩) []
  refine ⟨r.reverse, bind_eq_ok.2 ⟨r, hr, rfl⟩, fun a => ?_⟩
  simp only [List.mem_reverse, hmem, List.not_mem_nil, or_false]
  refine and_congr_right fun ha => ?_
  obtain ⟨b, hb, hiff⟩ := h a ha
  rw [hb, ← hiff]
  simp

theorem exists_filterMapM {f : α → Except Fault (Option β)} (h : ∀ a ∈ as, ∃ b, f a = .ok b) :
    ∃ r, as.filterMapM f = .ok r ∧ ∀ b, b ∈ r ↔ ∃ a ∈ as, f a = .ok (some b) := by
  induction as with
  | nil => exact ⟨[], rfl, by simp⟩
  | cons a as ih =>
    obtain ⟨b?, hb⟩ := h a List.mem_cons_self
    obtain ⟨r, hr, hmem⟩ := ih fun a' ha' => h a' (List.mem_cons_of_mem _ ha')
    rw [List.filterMapM_cons]
    cases b? with
    | none => exact ⟨r, bind_eq_ok.2 ⟨none, hb, hr⟩, by simp [hmem, hb]⟩
    | some b =>
      refine ⟨b :: r, bind_eq_ok.2 ⟨some b, hb, bind_eq_ok.2 ⟨r, hr, rfl⟩⟩, fun c => ?_⟩
      simp [hmem, hb, eq_comm]

theorem mapM_eq_ok_map {g : α → β}
    (h : ∀ a ∈ as, f a = .ok (g a)) : as.mapM f = .ok (as.map g) :=
  mapM_eq_ok.2 (List.forall₂_map_right_iff.2 (List.forall₂_same.2 h))

theorem mem_of_filterAuxM {f : α → Except Fault Bool} {found r : List α} {a : α}
    (h : as.filterAuxM f found = .ok r) (ha : a ∈ r) : a ∈ as ∨ a ∈ found := by
  induction as generalizing found with
  | nil =>
    cases h
    exact Or.inr ha
  | cons c as ih =>
    obtain ⟨b, -, h⟩ := bind_eq_ok.1 h
    rcases ih h with hmem | hmem
    · exact Or.inl (List.mem_cons_of_mem _ hmem)
    · cases b with
      | false => exact Or.inr hmem
      | true =>
        rcases List.mem_cons.1 hmem with rfl | hmem
        · exact Or.inl List.mem_cons_self
        · exact Or.inr hmem

theorem mem_of_filterM {f : α → Except Fault Bool} {r : List α} {a : α}
    (h : as.filterM f = .ok r) (ha : a ∈ r) : a ∈ as := by
  obtain ⟨found, hfound, h⟩ := bind_eq_ok.1 h
  cases h
  simpa using mem_of_filterAuxM hfound (List.mem_reverse.1 ha)

end ObjectFlow
