import ObjectFlow.PointsTo.FlowEdges
import ObjectFlow.Proofs.Indexes

/-!
# The views of the flow agree

The flow between pointers is kept three times: as the set of its edges, by source and by target. The
propagation of objects goes by source, the check of the result lists all edges, and a new edge is
told from an old one by the set. What each of them should show is said in terms of the edges that
were asked for (`FlowView.Tells`), and that settles what is shown (`FlowView.Tells.unique`).

`FlowEdges` keeps the targets and the sources in maps. They can also be kept in rows, one for each
number, that are added when a number is met for the first time (`FlowTable`). Then the ends of an
edge have to be in range when the edge is entered. They always are, and the table shows what the
maps show (`FlowEdges.exists_tells`).
-/

namespace ObjectFlow

open Std

/-- An edge along which objects flow, by its source and its target. -/
abbrev PointerEdge := PointerId × PointerId

/-! ## What is to be shown -/

/-- What can be asked about a flow. -/
structure FlowView where
  hasEdge : PointerId → PointerId → Bool
  succs : PointerId → List PointerId
  preds : PointerId → List PointerId
  edges : List PointerEdge
  size : Nat

/-- One edge was asked for before another one was asked for the first time. -/
def AskedBefore (asked : List PointerEdge) (e e' : PointerEdge) : Prop :=
  asked.idxOf e < asked.idxOf e'

/-- The order of edges by source, and of those with one source by when they were asked for. -/
def ListedBefore (asked : List PointerEdge) (e e' : PointerEdge) : Prop :=
  e.1.index < e'.1.index ∨ e.1 = e'.1 ∧ AskedBefore asked e e'

/-- A flow shows the edges that were asked for, each once and in order, whichever way it is looked
at. -/
structure FlowView.Tells (view : FlowView) (asked : List PointerEdge) : Prop where
  hasEdge : ∀ s t, view.hasEdge s t = true ↔ (s, t) ∈ asked
  mem_succs : ∀ s t, t ∈ view.succs s ↔ (s, t) ∈ asked
  mem_preds : ∀ s t, s ∈ view.preds t ↔ (s, t) ∈ asked
  nodup_succs : ∀ s, (view.succs s).Nodup
  nodup_preds : ∀ t, (view.preds t).Nodup
  succs_ordered : ∀ s, (view.succs s).Pairwise fun t t' => AskedBefore asked (s, t) (s, t')
  preds_ordered : ∀ t, (view.preds t).Pairwise fun s s' => AskedBefore asked (s, t) (s', t)
  mem_edges : ∀ e, e ∈ view.edges ↔ e ∈ asked
  nodup_edges : view.edges.Nodup
  edges_ordered : view.edges.Pairwise (ListedBefore asked)
  size : view.size = view.edges.length
  succs_unknown : ∀ s, (∀ t, (s, t) ∉ asked) → view.succs s = []
  preds_unknown : ∀ t, (∀ s, (s, t) ∉ asked) → view.preds t = []

/-- Of each edge that was asked for, whether it was asked for the first time. -/
def MarksFirst (asked : List PointerEdge) (answers : List Bool) : Prop :=
  answers.length = asked.length ∧
    ∀ i e, asked[i]? = some e → (answers[i]? = some true ↔ e ∉ asked.take i)

theorem ListedBefore.asymm {asked : List PointerEdge} {e e' : PointerEdge}
    (h : ListedBefore asked e e') : ¬ ListedBefore asked e' e := by
  rintro (h' | ⟨heq', h'⟩) <;> rcases h with h | ⟨heq, h⟩
  · exact h.asymm h'
  · exact h'.ne (by rw [heq])
  · exact h.ne (by rw [heq'])
  · exact Nat.lt_asymm h h'

section

variable {α : Type} {before : α → α → Prop} {xs ys : List α}

theorem nodup_of_asymm (hasymm : ∀ {a b}, before a b → ¬ before b a) (h : xs.Pairwise before) :
    xs.Nodup := by
  refine h.imp ?_
  rintro a _ hlt rfl
  exact hasymm hlt hlt

/-- Members and order determine a list. -/
theorem eq_of_pairwise_asymm (hasymm : ∀ {a b}, before a b → ¬ before b a)
    (hxs : xs.Pairwise before) (hys : ys.Pairwise before) (hmem : ∀ a, a ∈ xs ↔ a ∈ ys) :
    xs = ys := by
  have hperm : xs.Perm ys :=
    (List.perm_ext_iff_of_nodup (nodup_of_asymm hasymm hxs) (nodup_of_asymm hasymm hys)).2 hmem
  exact hperm.eq_of_pairwise (fun a b _ _ hab hba => absurd hba (hasymm hab)) hxs hys

end

/-- There is one thing to show. -/
theorem FlowView.Tells.unique {view view' : FlowView} {asked : List PointerEdge}
    (h : view.Tells asked) (h' : view'.Tells asked) : view = view' := by
  have hedges : view.edges = view'.edges :=
    eq_of_pairwise_asymm ListedBefore.asymm h.edges_ordered h'.edges_ordered fun e => by
      rw [h.mem_edges, h'.mem_edges]
  have hhas : view.hasEdge = view'.hasEdge := by
    funext s t
    rw [Bool.eq_iff_iff, h.hasEdge, h'.hasEdge]
  have hsuccs : view.succs = view'.succs := by
    funext s
    refine eq_of_pairwise_asymm Nat.lt_asymm (h.succs_ordered s) (h'.succs_ordered s) fun t => ?_
    rw [h.mem_succs, h'.mem_succs]
  have hpreds : view.preds = view'.preds := by
    funext t
    refine eq_of_pairwise_asymm Nat.lt_asymm (h.preds_ordered t) (h'.preds_ordered t) fun s => ?_
    rw [h.mem_preds, h'.mem_preds]
  have hsize : view.size = view'.size := by rw [h.size, h'.size, hedges]
  cases view
  cases view'
  cases hedges
  cases hhas
  cases hsuccs
  cases hpreds
  cases hsize
  rfl

/-! ## Edges in the order of arrival -/

/-- A roster has its members in the order of their first occurrence. -/
theorem Roster.pairwise_idxOf_ofList {α : Type} [Keyed α] [BEq α] [LawfulBEq α] (as : List α) :
    (ofList as).toList.Pairwise fun a b => as.idxOf a < as.idxOf b := by
  induction as using List.reverseRecOn with
  | nil => exact .nil
  | append_singleton as z ih =>
    have hold : (ofList as).toList.Pairwise
        fun a b => (as ++ [z]).idxOf a < (as ++ [z]).idxOf b := by
      refine ih.imp_of_mem fun ha hb hlt => ?_
      rwa [List.idxOf_append_of_mem (mem_ofList.1 ha), List.idxOf_append_of_mem (mem_ofList.1 hb)]
    rw [ofList_concat, toList_insert]
    split
    · exact hold
    · next hnew =>
      rw [contains_iff, mem_ofList] at hnew
      refine List.pairwise_append.2 ⟨hold, List.pairwise_singleton _ z, fun a ha b hb => ?_⟩
      obtain rfl := List.mem_singleton.1 hb
      rw [List.idxOf_append_of_mem (mem_ofList.1 ha), List.idxOf_append_of_notMem hnew]
      exact Nat.lt_add_right _ (List.idxOf_lt_length_of_mem (mem_ofList.1 ha))

section

variable {es : List PointerEdge} {s t : PointerId} {before : PointerEdge → PointerEdge → Prop}

theorem mem_targetsIn : t ∈ targetsIn es s ↔ (s, t) ∈ es := by
  simp [targetsIn]

theorem mem_sourcesIn : s ∈ sourcesIn es t ↔ (s, t) ∈ es := by
  simp [sourcesIn]

theorem targetsIn_concat (e : PointerEdge) : targetsIn (es ++ [e]) s =
    if e.1 = s then targetsIn es s ++ [e.2] else targetsIn es s := by
  rw [targetsIn, List.filter_append, List.map_append]
  split <;> simp_all [targetsIn]

theorem sourcesIn_concat (e : PointerEdge) : sourcesIn (es ++ [e]) t =
    if e.2 = t then sourcesIn es t ++ [e.1] else sourcesIn es t := by
  rw [sourcesIn, List.filter_append, List.map_append]
  split <;> simp_all [sourcesIn]

theorem pairwise_targetsIn (h : es.Pairwise before) :
    (targetsIn es s).Pairwise fun t t' => before (s, t) (s, t') := by
  refine List.pairwise_map.2 (List.pairwise_filter.2 (h.imp ?_))
  rintro ⟨s₁, t⟩ ⟨s₂, t'⟩ hlt hs₁ hs₂
  cases of_decide_eq_true hs₁
  cases of_decide_eq_true hs₂
  exact hlt

theorem pairwise_sourcesIn (h : es.Pairwise before) :
    (sourcesIn es t).Pairwise fun s s' => before (s, t) (s', t) := by
  refine List.pairwise_map.2 (List.pairwise_filter.2 (h.imp ?_))
  rintro ⟨s, t₁⟩ ⟨s', t₂⟩ hlt ht₁ ht₂
  cases of_decide_eq_true ht₁
  cases of_decide_eq_true ht₂
  exact hlt

/-- The edges of a list by their sources, which are given in a list of their own. -/
def listing (sources : List PointerId) (es : List PointerEdge) : List PointerEdge :=
  sources.flatMap fun s => (targetsIn es s).map (s, ·)

theorem mem_listing {sources : List PointerId} {e : PointerEdge} :
    e ∈ listing sources es ↔ e.1 ∈ sources ∧ e ∈ es := by
  obtain ⟨s, t⟩ := e
  simp [listing, mem_targetsIn]

theorem listing_ordered {sources : List PointerId} {asked : List PointerEdge}
    (hsources : sources.Pairwise (·.index < ·.index)) (h : es.Pairwise (AskedBefore asked)) :
    (listing sources es).Pairwise (ListedBefore asked) := by
  refine List.pairwise_flatMap.2 ⟨fun s _ => ?_, hsources.imp fun {s s'} hlt => ?_⟩
  · exact List.pairwise_map.2 ((pairwise_targetsIn h).imp fun hlt => Or.inr ⟨rfl, hlt⟩)
  · intro e he e' he'
    obtain ⟨t, -, rfl⟩ := List.mem_map.1 he
    obtain ⟨t', -, rfl⟩ := List.mem_map.1 he'
    exact Or.inl hlt

end

/-- A view shows the edges of a list. -/
structure FlowView.Arranges (view : FlowView) (es : List PointerEdge) : Prop where
  hasEdge : ∀ s t, view.hasEdge s t = true ↔ (s, t) ∈ es
  succs : ∀ s, view.succs s = targetsIn es s
  preds : ∀ t, view.preds t = sourcesIn es t
  edges : ∃ sources, sources.Pairwise (·.index < ·.index) ∧ (∀ e ∈ es, e.1 ∈ sources) ∧
    view.edges = listing sources es
  size : view.size = es.length

theorem FlowView.Arranges.mem_edges {view : FlowView} {es : List PointerEdge}
    (h : view.Arranges es) {e : PointerEdge} : e ∈ view.edges ↔ e ∈ es := by
  obtain ⟨sources, -, hall, hedges⟩ := h.edges
  rw [hedges, mem_listing]
  exact and_iff_right_of_imp (hall e)

/-- It is enough to show the distinct edges in the order of their arrival. -/
theorem FlowView.Arranges.tells {view : FlowView} {asked : List PointerEdge}
    (h : view.Arranges (Roster.ofList asked).toList) : view.Tells asked := by
  have hes : (Roster.ofList asked).toList.Pairwise (AskedBefore asked) :=
    Roster.pairwise_idxOf_ofList asked
  have hmem {e} : e ∈ (Roster.ofList asked).toList ↔ e ∈ asked := Roster.mem_ofList
  have hedges : view.edges.Pairwise (ListedBefore asked) := by
    obtain ⟨sources, hsources, -, heq⟩ := h.edges
    rw [heq]
    exact listing_ordered hsources hes
  have hnodup : view.edges.Nodup := nodup_of_asymm ListedBefore.asymm hedges
  have hperm : view.edges.Perm (Roster.ofList asked).toList :=
    (List.perm_ext_iff_of_nodup hnodup (Roster.nodup_toList _)).2 fun _ => h.mem_edges
  have hsuccs := fun s => h.succs s ▸ pairwise_targetsIn (s := s) hes
  have hpreds := fun t => h.preds t ▸ pairwise_sourcesIn (t := t) hes
  have mem_succs : ∀ s t, t ∈ view.succs s ↔ (s, t) ∈ asked := fun s t => by
    rw [h.succs, mem_targetsIn, hmem]
  have mem_preds : ∀ s t, s ∈ view.preds t ↔ (s, t) ∈ asked := fun s t => by
    rw [h.preds, mem_sourcesIn, hmem]
  exact {
    hasEdge := fun s t => (h.hasEdge s t).trans hmem
    mem_succs
    mem_preds
    nodup_succs := fun s => nodup_of_asymm Nat.lt_asymm (hsuccs s)
    nodup_preds := fun t => nodup_of_asymm Nat.lt_asymm (hpreds t)
    succs_ordered := hsuccs
    preds_ordered := hpreds
    mem_edges := fun e => h.mem_edges.trans hmem
    nodup_edges := hnodup
    edges_ordered := hedges
    size := h.size.trans hperm.length_eq.symm
    succs_unknown := fun s hs => List.eq_nil_iff_forall_not_mem.2 fun t ht =>
      hs t ((mem_succs s t).1 ht)
    preds_unknown := fun t ht => List.eq_nil_iff_forall_not_mem.2 fun s hs =>
      ht s ((mem_preds s t).1 hs) }

/-! ## Edges in maps -/

namespace FlowEdges

/-- Add edges one after the other, and say of each whether it is new. -/
def addAll : FlowEdges → List PointerEdge → List Bool × FlowEdges
  | g, [] => ([], g)
  | g, e :: es =>
    let (answers, g') := (g.add e).2.addAll es
    ((g.add e).1 :: answers, g')

/-- What can be asked about the edges. -/
def view (g : FlowEdges) : FlowView where
  hasEdge := g.contains
  succs := g.succs
  preds := g.preds
  edges := g.toList
  size := g.size

theorem add_of_mem {g : FlowEdges} {e : PointerEdge} (h : e ∈ g.edges.toList) :
    g.add e = (false, g) := by
  have hc : g.contains e.1 e.2 = true := contains_iff.2 h
  rw [add, hc, insert, dif_pos (show g.edges.contains (e.1, e.2) = true from hc)]
  rfl

theorem toList_eq_listing (g : FlowEdges) :
    g.toList = listing g.targets.keys g.edges.toList := by
  rw [toList, listing, ← ExtTreeMap.map_fst_toList_eq_keys, List.flatMap_map]
  refine List.flatMap_congr fun b hb => ?_
  obtain ⟨s, targets⟩ := b
  rw [← succs_eq, succs, ExtTreeMap.getD_eq_getD_getElem?,
    ExtTreeMap.mem_toList_iff_getElem?_eq_some.1 hb]
  rfl

theorem arranges (g : FlowEdges) : g.view.Arranges g.edges.toList where
  hasEdge _ _ := contains_iff
  succs := g.succs_eq
  preds := g.preds_eq
  edges := by
    refine ⟨g.targets.keys, ?_, fun e he => ?_, g.toList_eq_listing⟩
    · refine ExtTreeMap.ordered_keys.imp fun {p q} hlt => ?_
      exact lt_of_compare_singleton hlt
    · -- A pointer without an entry has no targets.
      have ht : e.2 ∈ g.succs e.1 := by rwa [succs_eq, mem_targetsIn]
      rw [ExtTreeMap.mem_keys]
      by_contra hnone
      rw [succs, ExtTreeMap.getD_eq_fallback hnone] at ht
      exact List.not_mem_nil ht
  size := rfl

/-- Additions are noted in the roster. -/
theorem edges_addAll (g : FlowEdges) (es : List PointerEdge) :
    (g.addAll es).2.edges = g.edges.insertMany es := by
  induction es generalizing g with
  | nil => rfl
  | cons e es ih => exact (ih (g.add e).2).trans (by rw [add, edges_insert]; rfl)

end FlowEdges

/-! ## Edges in rows -/

/-- Rows of pointers, one for each number below a bound. -/
abbrev PointerRows := Array (Array PointerId)

namespace PointerRows

/-- The row of a pointer; there is nothing in a row that is missing. -/
def row (rows : PointerRows) (p : PointerId) : List PointerId := (rows[p.index]?.getD #[]).toList

/-- Bring the number of rows to `n`: some are cut off at the end, or empty ones are added there. -/
def resize (rows : PointerRows) (n : Nat) : PointerRows :=
  rows.take n ++ Array.replicate (n - rows.size) #[]

/-- Put a pointer at the end of a row, which must be there. -/
def push (rows : PointerRows) (p q : PointerId) : Except Fault PointerRows := do
  let row ← orUnknown rows[p.index]?
  return rows.setIfInBounds p.index (row.push q)

variable {rows : PointerRows} {n : Nat}

theorem size_resize (rows : PointerRows) (n : Nat) : (rows.resize n).size = n := by
  rw [resize, Array.take, Array.size_append, Array.size_extract, Array.size_replicate]
  omega

theorem row_resize (h : rows.size ≤ n) (p : PointerId) : (rows.resize n).row p = rows.row p := by
  rw [row, resize, Array.take, Array.extract_eq_self_of_le h, Array.getElem?_append]
  split
  · rfl
  · next hp =>
    rw [row, Array.getElem?_eq_none (Nat.le_of_not_lt hp), Array.getElem?_replicate]
    split <;> rfl

/-- In range nothing fails, and one row is longer by one. -/
theorem exists_push {p : PointerId} (h : p.index < rows.size) (q : PointerId) :
    ∃ rows', rows.push p q = .ok rows' ∧ rows'.size = rows.size ∧
      ∀ p', rows'.row p' = if p = p' then rows.row p ++ [q] else rows.row p' := by
  refine ⟨_, by rw [push, Array.getElem?_eq_getElem h]; rfl, Array.size_setIfInBounds, ?_⟩
  intro p'
  rw [row, Array.getElem?_setIfInBounds]
  by_cases hp : p = p'
  · subst hp
    simp [row, h]
  · have hindex : p.index ≠ p'.index := fun hc => hp (by cases p; cases p'; cases hc; rfl)
    rw [if_neg hindex, if_neg hp, row]

end PointerRows

/-- The flow between pointers by number. Both kinds of rows are there for the same numbers. -/
structure FlowTable where
  succs : PointerRows := #[]
  preds : PointerRows := #[]
  edges : ExtTreeSet PointerEdge := ∅

namespace FlowTable

/-- Make sure that a pointer has its rows. -/
def ensure (t : FlowTable) (p : PointerId) : FlowTable :=
  if t.succs.size ≤ p.index then
    { t with succs := t.succs.resize (p.index + 1), preds := t.preds.resize (p.index + 1) }
  else t

/-- Enter an edge in its two rows, which must be there. -/
def enter (t : FlowTable) (e : PointerEdge) : Except Fault FlowTable := do
  let succs ← t.succs.push e.1 e.2
  let preds ← t.preds.push e.2 e.1
  return { t with succs, preds }

/-- Add an edge, and say whether it is new. -/
def add (t : FlowTable) (e : PointerEdge) : Except Fault (Bool × FlowTable) :=
  if t.edges.contains e then return (false, t)
  else do
    let t ← ((ensure { t with edges := t.edges.insert e } e.1).ensure e.2).enter e
    return (true, t)

/-- Add edges one after the other, and say of each whether it is new. -/
def addAll : FlowTable → List PointerEdge → Except Fault (List Bool × FlowTable)
  | t, [] => return ([], t)
  | t, e :: es => do
    let (answer, t) ← t.add e
    let (answers, t) ← t.addAll es
    return (answer :: answers, t)

/-- What can be asked about the edges. -/
def view (t : FlowTable) : FlowView where
  hasEdge p q := t.edges.contains (p, q)
  succs := t.succs.row
  preds := t.preds.row
  edges := (Id.range .pointers t.succs.size).flatMap fun p => (t.succs.row p).map (p, ·)
  size := t.edges.size

/-! ### Rows on demand -/

/-- The edges of a list are entered in the rows of a table. Rows of both kinds are there for the
same numbers. -/
structure Files (t : FlowTable) (es : List PointerEdge) : Prop where
  size_eq : t.preds.size = t.succs.size
  succs : ∀ p, t.succs.row p = targetsIn es p
  preds : ∀ p, t.preds.row p = sourcesIn es p

variable {t : FlowTable} {es : List PointerEdge} {e : PointerEdge}

theorem edges_ensure (t : FlowTable) (p : PointerId) : (t.ensure p).edges = t.edges := by
  unfold ensure
  split <;> rfl

theorem size_ensure (t : FlowTable) (p : PointerId) :
    (t.ensure p).succs.size = max t.succs.size (p.index + 1) := by
  unfold ensure
  split
  · rw [PointerRows.size_resize]
    omega
  · omega

/-- New rows are empty. None is cut off, since there are as many of one kind as of the other. -/
theorem Files.ensure (h : t.Files es) (p : PointerId) : (t.ensure p).Files es := by
  unfold FlowTable.ensure
  split
  · next hp =>
    have hle : t.succs.size ≤ p.index + 1 := Nat.le_succ_of_le hp
    have hle' : t.preds.size ≤ p.index + 1 := h.size_eq ▸ hle
    exact {
      size_eq := by rw [PointerRows.size_resize, PointerRows.size_resize]
      succs := fun q => (PointerRows.row_resize hle q).trans (h.succs q)
      preds := fun q => (PointerRows.row_resize hle' q).trans (h.preds q) }
  · exact h

theorem Files.exists_enter (h : t.Files es) (hsource : e.1.index < t.succs.size)
    (htarget : e.2.index < t.succs.size) :
    ∃ t', t.enter e = .ok t' ∧ t'.edges = t.edges ∧ t'.Files (es ++ [e]) := by
  obtain ⟨succs, hsuccs, hsize, hrow⟩ := PointerRows.exists_push hsource e.2
  obtain ⟨preds, hpreds, hsize', hrow'⟩ :=
    PointerRows.exists_push (show e.2.index < t.preds.size from h.size_eq ▸ htarget) e.1
  refine ⟨{ t with succs, preds }, ?_, rfl, ?_⟩
  · exact bind_eq_ok.2 ⟨succs, hsuccs, bind_eq_ok.2 ⟨preds, hpreds, rfl⟩⟩
  · exact {
      size_eq := hsize'.trans (h.size_eq.trans hsize.symm)
      succs := fun p => by
        rw [hrow, h.succs, h.succs, targetsIn_concat]
        split <;> simp_all
      preds := fun p => by
        rw [hrow', h.preds, h.preds, sourcesIn_concat]
        split <;> simp_all }

/-! ### What a table holds -/

/-- The edges of a list are those of a table. -/
structure Holds (t : FlowTable) (es : List PointerEdge) : Prop extends Files t es where
  mem_edges : ∀ e, e ∈ t.edges ↔ e ∈ es
  size_edges : t.edges.size = es.length

theorem holds_empty : Holds {} [] where
  size_eq := rfl
  succs _ := rfl
  preds _ := rfl
  mem_edges _ := iff_of_false ExtTreeSet.not_mem_empty List.not_mem_nil
  size_edges := rfl

theorem Holds.contains_iff (h : t.Holds es) : t.edges.contains e = true ↔ e ∈ es := by
  rw [ExtTreeSet.contains_iff_mem, h.mem_edges]

theorem Holds.add_of_mem (h : t.Holds es) (he : e ∈ es) : t.add e = .ok (false, t) := by
  rw [add, if_pos (h.contains_iff.2 he)]
  rfl

/-- An edge that is new is entered in its two rows, whichever of them had to be added for it. -/
theorem Holds.exists_add (h : t.Holds es) (he : e ∉ es) :
    ∃ t', t.add e = .ok (true, t') ∧ t'.Holds (es ++ [e]) := by
  have hnew : ¬ t.edges.contains e = true := fun hc => he (h.contains_iff.1 hc)
  -- The edge is noted in the set first, and both ends get their rows before either is written.
  let noted : FlowTable := { t with edges := t.edges.insert e }
  have hfiles : noted.Files es := ⟨h.size_eq, h.succs, h.preds⟩
  obtain ⟨t', henter, hedges, hfiles'⟩ := ((hfiles.ensure e.1).ensure e.2).exists_enter
    (e := e) (by simp only [size_ensure]; omega) (by simp only [size_ensure]; omega)
  rw [edges_ensure, edges_ensure] at hedges
  refine ⟨t', ?_, hfiles', fun e' => ?_, ?_⟩
  · rw [add, if_neg hnew]
    exact bind_eq_ok.2 ⟨t', henter, rfl⟩
  · rw [hedges, ExtTreeSet.mem_insert, LawfulEqOrd.compare_eq_iff_eq, h.mem_edges,
      List.mem_append, List.mem_singleton, or_comm, eq_comm]
  · rw [hedges, ExtTreeSet.size_insert, if_neg hnew, h.size_edges, List.length_append]
    rfl

theorem Holds.arranges (h : t.Holds es) : t.view.Arranges es where
  hasEdge _ _ := h.contains_iff
  succs := h.succs
  preds := h.preds
  edges := by
    refine ⟨Id.range .pointers t.succs.size, Id.range_ascending .pointers _, ?_, ?_⟩
    · -- Behind the last row there are no targets.
      intro e he
      have ht : e.2 ∈ t.succs.row e.1 := by rwa [h.succs, mem_targetsIn]
      rw [Id.mem_range]
      by_contra hout
      rw [PointerRows.row, Array.getElem?_eq_none (Nat.le_of_not_lt hout)] at ht
      exact List.not_mem_nil ht
    · exact List.flatMap_congr fun p _ => by rw [h.succs]
  size := h.size_edges

/-! ### A table beside the maps -/

variable {g : FlowEdges}

theorem Holds.step (h : t.Holds g.edges.toList) (e : PointerEdge) :
    ∃ t', t.add e = .ok ((g.add e).1, t') ∧ t'.Holds (g.add e).2.edges.toList := by
  by_cases he : e ∈ g.edges.toList
  · rw [FlowEdges.add_of_mem he]
    exact ⟨t, h.add_of_mem he, h⟩
  · have hc : g.edges.contains e = false := by
      rw [← Bool.not_eq_true, Roster.contains_iff]
      exact he
    obtain ⟨t', hadd, h'⟩ := h.exists_add he
    refine ⟨t', ?_, ?_⟩
    · rw [hadd, FlowEdges.add, FlowEdges.contains, hc]
      rfl
    · rwa [FlowEdges.add, FlowEdges.edges_insert, Roster.toList_insert, hc]

/-- A table and maps that hold the same edges go on to do so, and give the same answers. -/
theorem Holds.run (es : List PointerEdge) (h : t.Holds g.edges.toList) :
    ∃ t', t.addAll es = .ok ((g.addAll es).1, t') ∧ t'.Holds (g.addAll es).2.edges.toList := by
  induction es generalizing t g with
  | nil => exact ⟨t, rfl, h⟩
  | cons e es ih =>
    obtain ⟨t₁, hadd, h₁⟩ := h.step e
    obtain ⟨t', hrest, h'⟩ := ih h₁
    refine ⟨t', ?_, h'⟩
    rw [addAll, hadd]
    show (do let (answers, t) ← t₁.addAll es; return ((g.add e).1 :: answers, t)) = _
    rw [hrest]
    rfl

end FlowTable

namespace FlowEdges

/-- An edge is called new if it has neither been there at first nor been added since. -/
theorem answers_addAll (g : FlowEdges) (es : List PointerEdge) :
    (g.addAll es).1.length = es.length ∧ ∀ i e, es[i]? = some e →
      ((g.addAll es).1[i]? = some true ↔ e ∉ g.edges.toList ∧ e ∉ es.take i) := by
  induction es generalizing g with
  | nil => exact ⟨rfl, fun i e he => by simp at he⟩
  | cons e es ih =>
    obtain ⟨hlength, hanswers⟩ := ih (g.add e).2
    refine ⟨congrArg (· + 1) hlength, fun i e' he' => ?_⟩
    cases i with
    | zero =>
      cases he'
      show some (!g.contains e.1 e.2) = some true ↔ _
      rw [Option.some.injEq, Bool.not_eq_true', ← Bool.not_eq_true, contains_iff]
      simp
    | succ i =>
      refine (hanswers i e' he').trans ?_
      rw [add, edges_insert, Roster.mem_insert, List.take_succ_cons, List.mem_cons]
      tauto

/-- Whatever edges are added to a flow, it calls those new that have not been added before, keeps
no edge twice, and shows the same edges whichever way it is looked at. A table that grows on demand
is never asked for a row that it does not have, and does the same. -/
theorem exists_tells (asked : List PointerEdge) :
    ∃ answers g t, (∅ : FlowEdges).addAll asked = (answers, g) ∧
      FlowTable.addAll {} asked = .ok (answers, t) ∧ MarksFirst asked answers ∧
      g.view.Tells asked ∧ t.view = g.view ∧
      ∀ e ∈ asked, g.add e = (false, g) ∧ t.add e = .ok (false, t) := by
  obtain ⟨t, ht, hholds⟩ := FlowTable.Holds.run (g := ∅) asked FlowTable.holds_empty
  have hedges : ((∅ : FlowEdges).addAll asked).2.edges = Roster.ofList asked := edges_addAll ∅ asked
  have hmem : ∀ e ∈ asked, e ∈ ((∅ : FlowEdges).addAll asked).2.edges.toList := fun e he => by
    rwa [hedges, Roster.mem_ofList]
  have hmaps : ((∅ : FlowEdges).addAll asked).2.view.Tells asked :=
    FlowView.Arranges.tells (hedges ▸ arranges _)
  have htable : t.view.Tells asked := FlowView.Arranges.tells (hedges ▸ hholds.arranges)
  refine ⟨_, _, t, rfl, ht, ?_, hmaps, htable.unique hmaps, fun e he => ?_⟩
  · obtain ⟨hlength, hanswers⟩ := answers_addAll ∅ asked
    refine ⟨hlength, fun i e he => (hanswers i e he).trans (and_iff_right ?_)⟩
    exact List.not_mem_nil
  · exact ⟨add_of_mem (hmem e he), hholds.add_of_mem (hmem e he)⟩

/-- A gap, a repeat, a loop, and a source that comes late. -/
example : (FlowTable.addAll {} [(⟨3⟩, ⟨1⟩), (⟨3⟩, ⟨1⟩), (⟨1⟩, ⟨1⟩), (⟨0⟩, ⟨1⟩)]).map
    (fun r => (r.1, r.2.view.preds ⟨1⟩, r.2.view.edges)) =
    .ok ([true, false, true, true], [⟨3⟩, ⟨1⟩, ⟨0⟩], [(⟨0⟩, ⟨1⟩), (⟨1⟩, ⟨1⟩), (⟨3⟩, ⟨1⟩)]) := by
  decide +kernel

end FlowEdges

end ObjectFlow
