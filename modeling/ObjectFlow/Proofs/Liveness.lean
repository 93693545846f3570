import Mathlib.Data.Finset.Card
import ObjectFlow.LiveVariables
import ObjectFlow.Proofs.PostSolutions
import ObjectFlow.Proofs.Propagation

/-!
# Solving for live variables

Sets of variables are ordered by inclusion. A set that holds nothing but variables of a program can
grow at most as often as the program has variables, and statements read no others. So the visits
that the analysis of live variables is given suffice for every method (`exists_solve`).
-/

namespace ObjectFlow

open Std

theorem ControlFlow.linked (m : Method) : (ofMethod m).graph.Linked where
  entry_mem := (coherent m).entry_mem
  exit_mem := mem_nodesOf.2 (Or.inr (Or.inr rfl))
  preds_mem _ h := (succs_mem (mem_succs.2 (mem_preds.1 h))).1
  succs_mem := (coherent m).succs_mem
  mem_preds := (coherent m).mem_preds

namespace LiveVariables

/-! ## Sets of variables -/

instance : PartialOrder (ExtTreeSet VarId) where
  le s t := ∀ v ∈ s, v ∈ t
  le_refl _ _ h := h
  le_trans _ _ _ hst htu v h := htu v (hst v h)
  le_antisymm _ _ hst hts := ExtTreeSet.ext_mem fun v => ⟨hst v, hts v⟩

instance : SemilatticeSup (ExtTreeSet VarId) where
  sup := (· ∪ ·)
  le_sup_left _ _ _ h := ExtTreeSet.mem_union_iff.2 (Or.inl h)
  le_sup_right _ _ _ h := ExtTreeSet.mem_union_iff.2 (Or.inr h)
  sup_le _ _ _ hs ht v h := (ExtTreeSet.mem_union_iff.1 h).elim (hs v) (ht v)

theorem mem_sup {s t : ExtTreeSet VarId} {v : VarId} : v ∈ s ⊔ t ↔ v ∈ s ∨ v ∈ t :=
  ExtTreeSet.mem_union_iff

/-- Only the first `n` variables are in the set. -/
def Within (n : Nat) (live : ExtTreeSet VarId) : Prop := ∀ v ∈ live, v.index < n

/-- How many of the first `n` variables are in the set. -/
def height (n : Nat) (live : ExtTreeSet VarId) : Nat :=
  ((Finset.range n).filter fun i => ⟨i⟩ ∈ live).card

variable {n : Nat} {live live' : ExtTreeSet VarId}

theorem height_le (n : Nat) (live : ExtTreeSet VarId) : height n live ≤ n := by
  have h := Finset.card_filter_le (Finset.range n) fun i => (⟨i⟩ : VarId) ∈ live
  rwa [Finset.card_range] at h

/-- A growing set has more members. -/
theorem height_lt (hw : Within n live') (h : live < live') : height n live < height n live' := by
  obtain ⟨hle, hnot⟩ := lt_iff_le_not_ge.1 h
  obtain ⟨v, hv, hv'⟩ : ∃ v ∈ live', v ∉ live := by
    by_contra hall
    exact hnot fun v hv => by_contra fun hv' => hall ⟨v, hv, hv'⟩
  have hsub : ((Finset.range n).filter fun i => (⟨i⟩ : VarId) ∈ live) ⊆
      (Finset.range n).filter fun i => ⟨i⟩ ∈ live' :=
    Finset.monotone_filter_right _ fun i _ hi => hle ⟨i⟩ hi
  refine Finset.card_lt_card ((Finset.ssubset_iff_of_subset hsub).2 ⟨v.index, ?_, ?_⟩)
  · exact Finset.mem_filter.2 ⟨Finset.mem_range.2 (hw v hv), hv⟩
  · exact fun hmem => hv' (Finset.mem_filter.1 hmem).2

/-! ## Solutions -/

variable {p : Program} {m : MethodId} {method : Method}

theorem mem_transfer {site : StmtId} {s : Stmt} (hst : p.stmt site = .ok s)
    (h : transfer p (.stmt site) live = .ok live') {v : VarId} :
    v ∈ live' ↔ v ∈ live ∧ s.defined ≠ some v ∨ v ∈ s.used := by
  obtain ⟨s', hs', h⟩ := bind_eq_ok.1 h
  rw [hst] at hs'
  cases hs'
  obtain rfl := pure_eq_ok.1 h
  simp [eq_comm]

theorem exists_transfer (hp : p.Accepted) (hm : p.method m = .ok method) {n : Node}
    (hn : n ∈ ControlFlow.nodesOf method) (hlive : Within p.model.vars.size live) :
    ∃ before, transfer p n live = .ok before ∧ Within p.model.vars.size before := by
  rcases ControlFlow.mem_nodesOf.1 hn with rfl | ⟨site, s, hs, rfl⟩ | rfl
  · exact ⟨live, rfl, hlive⟩
  · obtain ⟨-, hst⟩ := (Program.mem_stmts hp hm).1 hs
    have htransfer : ∃ before, transfer p (.stmt site) live = .ok before :=
      ⟨_, bind_eq_ok.2 ⟨s, hst, rfl⟩⟩
    obtain ⟨before, hbefore⟩ := htransfer
    refine ⟨before, hbefore, fun v hv => ?_⟩
    rcases (mem_transfer hst hbefore).1 hv with ⟨hv, -⟩ | hv
    · exact hlive v hv
    · exact (Program.declares_used hp hst hv).index_lt
  · exact ⟨live, rfl, hlive⟩

theorem lawful (hp : p.Accepted) (hm : p.method m = .ok method) :
    (analysis p).Lawful ((analysis p).along (ControlFlow.ofMethod method).graph)
      (Within p.model.vars.size) (height p.model.vars.size) p.model.vars.size where
  meet f f' := sup_comm f' f
  boundary v hv := by simp [analysis] at hv
  initial v hv := by simp [analysis] at hv
  sup hf hf' v hv := (mem_sup.1 hv).elim (hf v) (hf' v)
  transfer := exists_transfer hp hm
  height_lt _ hf' h := height_lt hf' h
  height_le _ := height_le ..

/-- The live variables of every method are found, and they solve the equations of the analysis
against the flow of control. -/
theorem exists_solve (hp : p.Accepted) (hm : p.method m = .ok method) :
    ∃ r, solve p m = .ok r ∧ Dataflow.Solved (analysis p)
      (ControlFlow.ofMethod method).graph.reverse r.outFacts r.inFacts := by
  obtain ⟨r, hr, hsolved⟩ := Dataflow.exists_solve
    ((ControlFlow.linked method).along (analysis p)).coherent (lawful hp hm)
  exact ⟨r, bind_eq_ok.2 ⟨_, Supergraph.of_eq_ok.2 ⟨method, hm, rfl⟩, hr⟩, hsolved⟩

end LiveVariables

end ObjectFlow
