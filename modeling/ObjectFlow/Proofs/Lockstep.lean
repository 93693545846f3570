import ObjectFlow.Proofs.LeastSolutions
import ObjectFlow.Proofs.SuperSolving

/-!
# Two solvers in step

A graph is solved by one loop and a supergraph by another. The second one moves facts along edges,
refines a shared state before it computes what flows out of a node, and visits the entry too. Where
the supergraph is that graph again and none of this has an effect (`Mirrors`), the two loops find
the same facts (`Mirrors.run_eq`).

What flows out of a node need not grow with what flows in, so the facts may depend on the order of
the visits and are not given by the equations of the analysis. The argument goes along the visits
instead: between any two of them both loops have the same facts, and the same nodes wait in the same
order (`Matches`).
-/

namespace ObjectFlow

open Std

/-! ## Agendas with the same members -/

namespace Agenda

variable {α : Type} [Keyed α] [DecidableEq α] {q q' : Agenda α} {a : α} {as : List α}

theorem toList_push_congr (h : q.toList = q'.toList) (a : α) :
    (q.push a).toList = (q'.push a).toList := by
  rw [toList_push, toList_push, h]

theorem toList_pushMany_congr (h : q.toList = q'.toList) (as : List α) :
    (q.pushMany as).toList = (q'.pushMany as).toList := by
  induction as generalizing q q' with
  | nil => exact h
  | cons a as ih => exact ih (toList_push_congr h a)

omit [DecidableEq α] in
theorem exists_pop? (h : q.toList = a :: as) :
    ∃ rest, q.pop? = some (a, rest) ∧ rest.toList = as := by
  cases hpop : q.pop? with
  | none =>
    rw [pop?_eq_none.1 hpop] at h
    cases h
  | some next =>
    obtain ⟨b, rest⟩ := next
    rw [pop?_eq_some hpop] at h
    cases h
    exact ⟨rest, rfl, rfl⟩

theorem toList_pushMany_of_nodup (h : (q.toList ++ as).Nodup) :
    (q.pushMany as).toList = q.toList ++ as := by
  induction as generalizing q with
  | nil => simp [pushMany]
  | cons a as ih =>
    have ha : a ∉ q.toList := fun hmem =>
      (List.nodup_append.1 h).2.2 a hmem a List.mem_cons_self rfl
    have hpush : (q.push a).toList = q.toList ++ [a] := by rw [toList_push, if_neg ha]
    show ((q.push a).pushMany as).toList = _
    rw [ih (by simpa [hpush] using h), hpush, List.append_assoc, List.singleton_append]

theorem toList_ofList_of_nodup (h : as.Nodup) : (ofList as).toList = as :=
  toList_pushMany_of_nodup (q := ∅) h

end Agenda

/-- What is found in a table already changes nothing when it is inserted. -/
theorem insert_of_getElem? {κ α : Type} [Keyed κ] {t : ExtTreeMap κ α} {k : κ} {a : α}
    (h : t[k]? = some a) : t.insert k a = t := by
  refine ExtTreeMap.ext_getElem? fun l => ?_
  by_cases hl : l = k
  · rw [hl, ExtTreeMap.getElem?_insert_self, h]
  · exact getElem?_insert_of_ne hl

namespace Dataflow

variable {σ φ : Type} [SemilatticeSup φ] {a : Analysis Node φ} {g : FlowGraph Node}
  {b : SuperAnalysis σ φ} {sg : Supergraph} {m : MethodId} {n : Node} {shared : σ}
  {s s' first : SuperProgress σ φ} {t t' : Progress Node φ}

/-- A supergraph and its analysis do what an analysis of a graph does, from the entry of one method
on: the nodes follow each other in the same order, nothing happens along edges, and no change of the
shared state is seen by any node. -/
structure Mirrors (a : Analysis Node φ) (g : FlowGraph Node) (b : SuperAnalysis σ φ)
    (sg : Supergraph) (m : MethodId) : Prop where
  meet : ∀ f f', a.meet f f' = f ⊔ f'
  superMeet : ∀ f f', b.meet f f' = f ⊔ f'
  initial : b.initial = a.initial
  boundary : b.boundary m = .ok a.boundary
  entry : g.entry = .entry m
  entries : sg.entries = [m]
  nodes : sg.nodes = g.nodes
  nodup : g.nodes.Nodup
  head : g.nodes.head? = some g.entry
  preds_entry : g.preds g.entry = []
  transfer_entry : ∀ f, a.transfer g.entry f = .ok f
  sources : ∀ {n k}, (∃ e ∈ sg.inEdges n, e.source = k) ↔ k ∈ g.preds n
  succs : ∀ {n}, n ∈ g.nodes → sg.succs n = (g.succs n).filter (· ≠ g.entry)
  along : ∀ {n e f}, e ∈ sg.inEdges n → b.along e f = .ok f
  refine : ∀ {h n f}, n ∈ g.nodes → ∃ h', b.refine h n f = .ok (h', [])
  transfer : ∀ {h n f}, n ∈ g.nodes → b.transfer h n f = a.transfer n f

/-- Two solvers have the same facts, and the same nodes wait in the same order. -/
structure Matches (s : SuperProgress σ φ) (t : Progress Node φ) : Prop where
  input : s.input = t.input
  output : s.output = t.output
  agenda : s.agenda.toList = t.agenda.toList

/-! ## Visits -/

/-- Where nothing happens along edges, what is gathered is the least upper bound of the start and of
what the sources of the edges put out. -/
theorem Super.exists_gather_of_along (hmeet : ∀ f f', b.meet f f' = f ⊔ f')
    (halong : ∀ e ∈ sg.inEdges n, ∀ f, b.along e f = .ok f) (output : ExtTreeMap Node φ)
    (start : φ) :
    ∃ x, Super.gather b sg output n start = .ok x ∧ ∀ f, x ≤ f ↔
      start ≤ f ∧ ∀ e ∈ sg.inEdges n, ∀ o, output[e.source]? = some o → o ≤ f := by
  unfold Super.gather
  generalize sg.inEdges n = edges at halong ⊢
  induction edges generalizing start with
  | nil => exact ⟨start, rfl, by simp⟩
  | cons e edges ih =>
    have hrest : ∀ e ∈ edges, ∀ f, b.along e f = .ok f := fun e he =>
      halong e (List.mem_cons_of_mem _ he)
    rw [List.foldlM_cons]
    cases ho : output[e.source]? with
    | none =>
      obtain ⟨x, hx, hle⟩ := ih start hrest
      exact ⟨x, hx, fun f => by simp [hle, ho]⟩
    | some o =>
      obtain ⟨x, hx, hle⟩ := ih (o ⊔ start) hrest
      refine ⟨x, bind_eq_ok.2 ⟨o ⊔ start, bind_eq_ok.2 ⟨o, ?_, ?_⟩, hx⟩, fun f => ?_⟩
      · exact halong e List.mem_cons_self o
      · rw [hmeet]
        rfl
      · simp [hle, ho, and_comm, and_assoc]

theorem Mirrors.gather_eq (hm : Mirrors a g b sg m) (output : ExtTreeMap Node φ) (start : φ) :
    Super.gather b sg output n start = .ok (gather a g output n start) := by
  obtain ⟨x, hx, hle⟩ := Super.exists_gather_of_along (n := n) hm.superMeet
    (fun e he f => hm.along he) output start
  rw [hx]
  refine congrArg Except.ok (eq_of_forall_ge_iff fun f => ?_)
  rw [hle, gather_le_iff hm.meet]
  refine and_congr_right fun _ => ⟨fun h k hk o ho => ?_, fun h e he o ho => ?_⟩
  · obtain ⟨e, he, rfl⟩ := hm.sources.2 hk
    exact h e he o ho
  · exact h e.source (hm.sources.1 ⟨e, he, rfl⟩) o ho

variable [DecidableEq φ]

/-- Visits to the same node keep the solvers in step. -/
theorem Mirrors.visit (hm : Mirrors a g b sg m) (hst : Matches s t) (hn : n ∈ g.nodes)
    (hvisit : visit a g n t = .ok t') : ∃ s', Super.visit b sg n s = .ok s' ∧ Matches s' t' := by
  obtain @⟨before, old, new, hb, ho, hnew⟩ := visit_eq_ok.1 hvisit
  obtain ⟨h', hrefine⟩ := hm.refine (h := s.shared) (f := gather a g t.output n before) hn
  unfold Super.visit
  rw [hst.input, hst.output, hb, ho]
  refine ⟨_, bind_eq_ok.2 ⟨_, hm.gather_eq .., bind_eq_ok.2 ⟨_, hrefine, bind_eq_ok.2 ⟨new, ?_,
    rfl⟩⟩⟩, rfl, rfl, ?_⟩
  · exact (hm.transfer hn).trans hnew
  · rw [hm.succs hn]
    split
    · exact hst.agenda
    · exact Agenda.toList_pushMany_congr hst.agenda _

/-! ## Runs -/

theorem Mirrors.run (hm : Mirrors a g b sg m) (hg : g.Coherent) {limit : Nat}
    (hst : Matches s t) (hqueue : ∀ n ∈ t.agenda.toList, n ∈ g.nodes)
    (hrun : run a g limit t = .ok t') :
    ∃ s', Super.run b sg limit s = .ok s' ∧ Matches s' t' := by
  induction limit generalizing s t with
  | zero =>
    unfold Dataflow.run at hrun
    split at hrun
    · next hpop =>
      cases hrun
      exact ⟨s, Super.run_of_done 0 (hst.agenda.trans (Agenda.pop?_eq_none.1 hpop)), hst⟩
    · cases hrun
  | succ limit ih =>
    unfold Dataflow.run at hrun
    split at hrun
    · next hpop =>
      cases hrun
      exact ⟨s, Super.run_of_done _ (hst.agenda.trans (Agenda.pop?_eq_none.1 hpop)), hst⟩
    · next n rest hpop =>
      obtain ⟨next, hvisit, hrun⟩ := bind_eq_ok.1 hrun
      have hagenda := Agenda.pop?_eq_some hpop
      have hn : n ∈ g.nodes := hqueue n (hagenda ▸ List.mem_cons_self)
      obtain ⟨rest', hpop', hrest⟩ := Agenda.exists_pop? (hst.agenda.trans hagenda)
      obtain ⟨s', hvisit', hst'⟩ := hm.visit (s := { s with agenda := rest' })
        (t := { t with agenda := rest }) ⟨hst.input, hst.output, hrest⟩ hn hvisit
      have hqueue' : ∀ k ∈ next.agenda.toList, k ∈ g.nodes := by
        intro k hk
        obtain ⟨-, -, -⟩ := visit_eq_ok.1 hvisit
        rcases Agenda.mem_ite_pushMany.1 hk with hk | ⟨-, hk⟩
        · exact hqueue k (hagenda ▸ List.mem_cons_of_mem _ hk)
        · exact hg.succs_mem hn (List.mem_filter.1 hk).1
      obtain ⟨final, hfinal, hmatches⟩ := ih hst' hqueue' hrun
      exact ⟨final, (Super.run_succ hpop' hvisit' limit).trans hfinal, hmatches⟩

omit [SemilatticeSup φ] in
/-- Where a run ends does not depend on how many visits are allowed. -/
theorem Super.run_unique {limit limit' : Nat} (h : Super.run b sg limit s = .ok first)
    (h' : Super.run b sg limit' s = .ok s') : first = s' := by
  induction limit generalizing s limit' with
  | zero =>
    unfold Super.run at h
    split at h
    · next hpop =>
      cases h
      rw [Super.run_of_done limit' (Agenda.pop?_eq_none.1 hpop)] at h'
      exact Except.ok.inj h'
    · cases h
  | succ limit ih =>
    unfold Super.run at h
    split at h
    · next hpop =>
      cases h
      rw [Super.run_of_done limit' (Agenda.pop?_eq_none.1 hpop)] at h'
      exact Except.ok.inj h'
    · next n rest hpop =>
      obtain ⟨next, hvisit, h⟩ := bind_eq_ok.1 h
      cases limit' with
      | zero =>
        unfold Super.run at h'
        rw [hpop] at h'
        cases h'
      | succ limit' =>
        rw [Super.run_succ hpop hvisit] at h'
        exact ih h h'

/-! ## The beginning -/

omit [DecidableEq φ] in
/-- Both solvers start with the same facts. -/
theorem Mirrors.input_start (hm : Mirrors a g b sg m)
    (hstart : Super.start b sg shared = .ok first) :
    first.input = (start a g).input ∧ first.output = (start a g).output ∧
      first.agenda.toList = g.nodes := by
  obtain ⟨boundary, hboundary, h⟩ := bind_eq_ok.1 hstart
  cases h
  have hentries : ∀ {k f}, (k, f) ∈ boundary ↔ k = g.entry ∧ f = a.boundary := by
    intro k f
    rw [Super.mem_boundary hboundary, hm.entries, hm.entry]
    simp only [List.mem_singleton, exists_eq_left, hm.boundary, Except.ok.injEq, @eq_comm φ f]
  have hfacts : ExtTreeMap.ofList ((sg.nodes.map fun n => (n, b.initial)) ++ boundary) =
      (start a g).input := by
    refine ExtTreeMap.ext_getElem? fun k => ?_
    have hentry : g.entry ∈ g.nodes := List.mem_of_mem_head? hm.head
    rw [getElem?_start]
    split
    · next hk =>
      obtain ⟨f, hf⟩ := Super.exists_getElem?_start (a := b) (hm.nodes ▸ hk) boundary
      rw [hf]
      rcases Super.start_cases hf with hmem | ⟨rfl, hnot⟩
      · obtain ⟨rfl, rfl⟩ := hentries.1 hmem
        rw [if_pos rfl]
      · rw [if_neg fun hk => hnot a.boundary (hentries.2 ⟨hk, rfl⟩), hm.initial]
    · next hk =>
      refine Option.eq_none_iff_forall_ne_some.2 fun f hf => ?_
      rw [ExtTreeMap.ofList_eq_insertMany_empty, ExtTreeMap.insertMany_append] at hf
      rcases insertMany_cases hf with hmem | ⟨hf, -⟩
      · exact hk ((hentries.1 hmem).1 ▸ hentry)
      · rw [getElem?_insertMany_map fun _ => b.initial, hm.nodes, if_neg hk] at hf
        simp at hf
  exact ⟨hfacts, hfacts, hm.nodes ▸ Agenda.toList_ofList_of_nodup (hm.nodes ▸ hm.nodup)⟩

/-- The first visit is one to the entry, which changes nothing. -/
theorem Mirrors.first_visit (hm : Mirrors a g b sg m)
    (hstart : Super.start b sg shared = .ok first) :
    ∃ s, (∀ limit, Super.run b sg (limit + 1) first = Super.run b sg limit s) ∧
      Matches s (start a g) := by
  obtain ⟨hin, hout, hagenda⟩ := hm.input_start hstart
  obtain ⟨others, hnodes⟩ : ∃ others, g.nodes = g.entry :: others :=
    List.head?_eq_some_iff.1 hm.head
  have hentry : g.entry ∈ g.nodes := hnodes ▸ List.mem_cons_self
  have hothers : g.entry ∉ others ∧ others.Nodup := List.nodup_cons.1 (hnodes ▸ hm.nodup)
  have hbefore : (start a g).input[g.entry]? = some a.boundary := by
    rw [getElem?_start, if_pos hentry, if_pos rfl]
  obtain ⟨rest, hpop, hrest⟩ := Agenda.exists_pop? (hagenda.trans hnodes)
  have hgather : ∀ output, gather a g output g.entry a.boundary = a.boundary := by
    intro output
    rw [gather, hm.preds_entry]
    rfl
  obtain ⟨h', hrefine⟩ := hm.refine (h := first.shared) (f := a.boundary) hentry
  have hvisit : Super.visit b sg g.entry { first with agenda := rest } = .ok {
      input := first.input
      output := first.output
      agenda := rest
      visited := g.entry :: first.visited
      shared := h' } := by
    unfold Super.visit
    rw [hin, hout, show (start a g).output = (start a g).input from rfl, hbefore]
    refine bind_eq_ok.2 ⟨a.boundary, ?_, bind_eq_ok.2 ⟨(h', []), hrefine,
      bind_eq_ok.2 ⟨a.boundary, ?_, ?_⟩⟩⟩
    · rw [hm.gather_eq, hgather]
    · exact (hm.transfer hentry).trans (hm.transfer_entry _)
    · simp only [if_true, insert_of_getElem? hbefore]
      rfl
  refine ⟨_, Super.run_succ hpop hvisit, hin, hout, ?_⟩
  show rest.toList = (Agenda.ofList (g.nodes.filter (· ≠ g.entry))).toList
  have hfilter : g.nodes.filter (· ≠ g.entry) = others := by
    rw [hnodes, List.filter_cons_of_neg (by simp), List.filter_eq_self]
    intro k hk
    exact decide_eq_true fun heq => hothers.1 (heq ▸ hk)
  rw [hrest, hfilter, Agenda.toList_ofList_of_nodup hothers.2]

/-- **In step.** A solver that mirrors another one finds the same facts. -/
theorem Mirrors.run_eq (hm : Mirrors a g b sg m) (hg : g.Coherent) {limit limit' : Nat}
    (hrun : Dataflow.run a g limit (start a g) = .ok t)
    (hstart : Super.start b sg shared = .ok first) (hrun' : Super.run b sg limit' first = .ok s) :
    s.input = t.input ∧ s.output = t.output := by
  obtain ⟨next, hnext, hmatches⟩ := hm.first_visit hstart
  have hqueue : ∀ n ∈ (start a g).agenda.toList, n ∈ g.nodes := fun n hn =>
    (List.mem_filter.1 (Agenda.mem_ofList.1 hn)).1
  obtain ⟨s', hs', hst⟩ := hm.run hg hmatches hqueue hrun
  obtain rfl := Super.run_unique hrun' ((hnext limit).trans hs')
  exact ⟨hst.input, hst.output⟩

end Dataflow

end ObjectFlow
