import Mathlib.Data.Fintype.Powerset
import ObjectFlow.Proofs.PostSolutions

/-!
# Least solutions

If what flows out of a node grows with what flows in, solving finds the least facts that satisfy the
equations of the analysis (`IsSolution`), even though inputs are joined from outputs that may be out
of date. Every fact that ever occurs is below any assignment of facts that gives no node less than
it needs (`Below`, `Dominates`). One such assignment recomputes every fact once from the facts in
the end. So nothing has flowed into a node but what its predecessors put out in the end.

A graph with the same edges in another order has the same solutions, and hence the same least one.
-/

namespace ObjectFlow

open Std

/-- Two graphs that differ at most in the order of their nodes and neighbours. -/
structure FlowGraph.Alike {ν : Type} (g g' : FlowGraph ν) : Prop where
  nodes : ∀ {n}, n ∈ g.nodes ↔ n ∈ g'.nodes
  entry : g.entry = g'.entry
  exit : g.exit = g'.exit
  preds : ∀ {m n}, m ∈ g.preds n ↔ m ∈ g'.preds n
  succs : ∀ {m n}, n ∈ g.succs m ↔ n ∈ g'.succs m

namespace FlowGraph.Alike

variable {ν φ : Type} {g g' : FlowGraph ν}

theorem refl (g : FlowGraph ν) : g.Alike g :=
  ⟨Iff.rfl, rfl, rfl, Iff.rfl, Iff.rfl⟩

theorem symm (h : g.Alike g') : g'.Alike g :=
  ⟨h.nodes.symm, h.entry.symm, h.exit.symm, h.preds.symm, h.succs.symm⟩

theorem linked (h : g.Alike g') (hg : g.Linked) : g'.Linked where
  entry_mem := h.nodes.1 (h.entry ▸ hg.entry_mem)
  exit_mem := h.nodes.1 (h.exit ▸ hg.exit_mem)
  preds_mem hn hm := h.nodes.1 (hg.preds_mem (h.nodes.2 hn) (h.preds.2 hm))
  succs_mem hm hn := h.nodes.1 (hg.succs_mem (h.nodes.2 hm) (h.succs.2 hn))
  mem_preds := h.preds.symm.trans (hg.mem_preds.trans h.succs)

theorem along (h : g.Alike g') (a : Analysis ν φ) : (a.along g).Alike (a.along g') := by
  unfold Analysis.along
  cases a.direction with
  | forward => exact h
  | backward => exact ⟨h.nodes, h.exit, h.entry, h.succs, h.preds⟩

end FlowGraph.Alike

theorem FlowGraph.alike_ofEdges {ν : Type} [DecidableEq ν] {nodes nodes' : List ν}
    {edges edges' : List (ν × ν)} (hnodes : nodes.Perm nodes') (hedges : edges.Perm edges')
    (entry exit : ν) :
    (ofEdges nodes entry exit edges).Alike (ofEdges nodes' entry exit edges') where
  nodes := hnodes.mem_iff
  entry := rfl
  exit := rfl
  preds := mem_preds_ofEdges.trans (hedges.mem_iff.trans mem_preds_ofEdges.symm)
  succs := mem_succs_ofEdges.trans (hedges.mem_iff.trans mem_succs_ofEdges.symm)

namespace Dataflow

variable {ν φ : Type} [Keyed ν] [SemilatticeSup φ] {a : Analysis ν φ} {g g' : FlowGraph ν}
  {t : ν → φ → φ} {input output : ν → φ} {s s' : Progress ν φ} {n : ν} {rest : Agenda ν}

/-- The facts satisfy the equations of an analysis: the node where facts start to flow has its fact
on both sides, what flows into any other node is the join of what its predecessors put out, and what
flows out is computed from it. -/
structure IsSolution (a : Analysis ν φ) (g : FlowGraph ν) (input output : ν → φ) : Prop where
  boundary : input g.entry = a.boundary ∧ output g.entry = a.boundary
  joins : ∀ {n}, n ∈ g.nodes → n ≠ g.entry →
    IsLUB {o | ∃ m ∈ g.preds n, output m = o} (input n)
  transfer : ∀ {n}, n ∈ g.nodes → n ≠ g.entry → a.transfer n (input n) = .ok (output n)

/-- The facts are below all that satisfy the equations. -/
structure IsLeastSolution (a : Analysis ν φ) (g : FlowGraph ν) (input output : ν → φ) : Prop
    extends IsSolution a g input output where
  le : ∀ {input' output'}, IsSolution a g input' output' →
    ∀ n ∈ g.nodes, input n ≤ input' n ∧ output n ≤ output' n

/-- The facts are not less than the equations ask for. -/
structure Dominates (a : Analysis ν φ) (g : FlowGraph ν) (input output : ν → φ) : Prop where
  boundary : a.boundary ≤ input g.entry ∧ a.boundary ≤ output g.entry
  preds : ∀ {m n}, n ∈ g.nodes → n ≠ g.entry → m ∈ g.preds n → output m ≤ input n
  transfer : ∀ {n o}, n ∈ g.nodes → n ≠ g.entry → a.transfer n (input n) = .ok o → o ≤ output n

/-- A table holds these facts at the nodes, and no others. -/
def Tabulates (g : FlowGraph ν) (table : ExtTreeMap ν φ) (fact : ν → φ) : Prop :=
  ∀ {n f}, table[n]? = some f ↔ n ∈ g.nodes ∧ f = fact n

/-- The facts so far are below these. -/
structure Below (s : Progress ν φ) (input output : ν → φ) : Prop where
  entering : ∀ {n f}, s.input[n]? = some f → f ≤ input n
  leaving : ∀ {n o}, s.output[n]? = some o → o ≤ output n

omit [Keyed ν] in
theorem IsSolution.dominates (h : IsSolution a g input output) : Dominates a g input output where
  boundary := ⟨h.boundary.1.ge, h.boundary.2.ge⟩
  preds hn hne hm := (h.joins hn hne).1 ⟨_, hm, rfl⟩
  transfer hn hne ho := by
    rw [h.transfer hn hne] at ho
    exact (Except.ok.inj ho).ge

omit [Keyed ν] in
theorem IsSolution.of_alike (hs : IsSolution a g input output) (h : g.Alike g') :
    IsSolution a g' input output where
  boundary := h.entry ▸ hs.boundary
  joins hn hne := by
    have := hs.joins (h.nodes.2 hn) (h.entry ▸ hne)
    simpa only [h.preds] using this
  transfer hn hne := hs.transfer (h.nodes.2 hn) (h.entry ▸ hne)

omit [Keyed ν] in
/-- Graphs that are alike have the same least facts at their nodes. -/
theorem IsLeastSolution.eq_of_alike {input' output' : ν → φ} (h : g.Alike g')
    (hs : IsLeastSolution a g input output) (hs' : IsLeastSolution a g' input' output')
    (hn : n ∈ g.nodes) : input n = input' n ∧ output n = output' n := by
  obtain ⟨hin, hout⟩ := hs.le (hs'.of_alike h.symm) n hn
  obtain ⟨hin', hout'⟩ := hs'.le (hs.of_alike h) n (h.nodes.1 hn)
  exact ⟨hin.antisymm hin', hout.antisymm hout'⟩

/-- What is gathered is the least upper bound of the start and of what the predecessors put out. -/
theorem gather_le_iff (hmeet : ∀ f f', a.meet f f' = f ⊔ f') {table : ExtTreeMap ν φ}
    {start f : φ} : gather a g table n start ≤ f ↔
      start ≤ f ∧ ∀ m ∈ g.preds n, ∀ o, table[m]? = some o → o ≤ f := by
  unfold gather
  induction g.preds n generalizing start with
  | nil => simp
  | cons m ms ih =>
    rw [List.foldl_cons, ih]
    cases hm : table[m]? with
    | none => simp [hm]
    | some o => simp [hm, hmeet, and_comm, and_assoc]

theorem isLUB_gather (hmeet : ∀ f f', a.meet f f' = f ⊔ f') (hbot : IsBot a.initial)
    {table : ExtTreeMap ν φ} (htable : Tabulates g table output)
    (hpreds : ∀ m ∈ g.preds n, m ∈ g.nodes) :
    IsLUB {o | ∃ m ∈ g.preds n, output m = o} (gather a g table n a.initial) := by
  refine isLUB_iff_le_iff.2 fun f => (gather_le_iff hmeet).trans ⟨?_, fun hf => ⟨hbot f, ?_⟩⟩
  · rintro ⟨-, h⟩ o ⟨m, hm, rfl⟩
    exact h m hm _ (htable.2 ⟨hpreds m hm, rfl⟩)
  · intro m hm o ho
    exact hf ⟨m, hm, (htable.1 ho).2.symm⟩

variable [DecidableEq ν] [DecidableEq φ]

/-! ## Runs -/

omit [SemilatticeSup φ] in
/-- What every visit preserves holds in the end. -/
theorem run_induction {P : Progress ν φ → Prop}
    (hvisit : ∀ {s s' n rest}, P s → s.agenda.pop? = some (n, rest) →
      visit a g n { s with agenda := rest } = .ok s' → P s')
    {limit : Nat} (hs : P s) (hrun : run a g limit s = .ok s') : P s' := by
  induction limit generalizing s with
  | zero =>
    unfold run at hrun
    split at hrun
    · cases hrun
      exact hs
    · cases hrun
  | succ limit ih =>
    unfold run at hrun
    split at hrun
    · cases hrun
      exact hs
    · next n rest hpop =>
      obtain ⟨next, hnext, hrun⟩ := bind_eq_ok.1 hrun
      exact ih (hvisit hs hpop hnext) hrun

omit [SemilatticeSup φ] in
/-- Visits add no facts but at the nodes of the graph. -/
theorem mem_nodes_of_run {limit : Nat} (hrun : run a g limit (start a g) = .ok s) :
    (∀ {n f}, s.input[n]? = some f → n ∈ g.nodes) ∧
      ∀ {n o}, s.output[n]? = some o → n ∈ g.nodes := by
  refine run_induction (P := fun s => (∀ {n f}, s.input[n]? = some f → n ∈ g.nodes) ∧
    ∀ {n o}, s.output[n]? = some o → n ∈ g.nodes) (fun {s s' n rest} hs _ hvisit => ?_) ?_ hrun
  · obtain ⟨hb, ho, -⟩ := visit_eq_ok.1 hvisit
    refine ⟨fun {m f} hf => ?_, fun {m o} hmo => ?_⟩
    · rcases insert_cases hf with ⟨rfl, -⟩ | ⟨-, hf⟩
      · exact hs.1 hb
      · exact hs.1 hf
    · rcases insert_cases hmo with ⟨rfl, -⟩ | ⟨-, hmo⟩
      · exact hs.1 hb
      · exact hs.2 hmo
  · have hstart : ∀ {n f}, (start a g).input[n]? = some f → n ∈ g.nodes := by
      intro n f hf
      rw [getElem?_start] at hf
      split at hf
      · assumption
      · cases hf
    exact ⟨hstart, hstart⟩

section Growing

variable (hg : g.Linked) (hmeet : ∀ f f', a.meet f f' = f ⊔ f')
  (htotal : ∀ n ∈ g.nodes, ∀ f, ∃ o, a.transfer n f = .ok o) (hbot : IsBot a.initial)
  (hgrows : ∀ n ∈ g.nodes, ∀ {f o o'}, f ≤ input n → a.transfer n f = .ok o →
    a.transfer n (input n) = .ok o' → o ≤ o')

omit [DecidableEq φ] in
include hbot in
theorem below_start (hd : Dominates a g input output) : Below (start a g) input output := by
  have hstart : ∀ {fact : ν → φ}, a.boundary ≤ fact g.entry →
      ∀ {n f}, (start a g).input[n]? = some f → f ≤ fact n := by
    intro fact hentry n f hf
    rw [getElem?_start] at hf
    split at hf
    · cases hf
      split
      · next hn => exact hn ▸ hentry
      · exact hbot _
    · cases hf
  exact ⟨hstart hd.boundary.1, hstart hd.boundary.2⟩

include hmeet htotal hgrows in
theorem Below.visit (hd : Dominates a g input output) (hb : Below s input output)
    (hn : n ∈ g.nodes) (hne : n ≠ g.entry) (hvisit : visit a g n s = .ok s') :
    Below s' input output := by
  obtain @⟨before, old, new, hbefore, -, hnew⟩ := visit_eq_ok.1 hvisit
  have hgather : gather a g s.output n before ≤ input n :=
    (gather_le_iff hmeet).2 ⟨hb.entering hbefore, fun m hm o ho =>
      (hb.leaving ho).trans (hd.preds hn hne hm)⟩
  have hout : new ≤ output n := by
    obtain ⟨o, ho⟩ := htotal n hn (input n)
    exact (hgrows n hn hgather hnew ho).trans (hd.transfer hn hne ho)
  refine ⟨fun {m f} hf => ?_, fun {m o} ho => ?_⟩
  · rcases insert_cases hf with ⟨rfl, rfl⟩ | ⟨-, hf⟩
    · exact hgather
    · exact hb.entering hf
  · rcases insert_cases ho with ⟨rfl, rfl⟩ | ⟨-, ho⟩
    · exact hout
    · exact hb.leaving ho

include hg hmeet htotal hbot hgrows in
/-- Every fact on the way is below any facts that give no node less than it needs, if what flows out
of a node grows with what flows in up to these facts. -/
theorem below_of_run_of_le {limit : Nat} (hrun : run a g limit (start a g) = .ok s)
    (hd : Dominates a g input output) : Below s input output := by
  have law : a.Closed g fun _ => True := closed_of_transfer hmeet htotal
  refine (run_induction (P := fun s => Settling a g (fun _ => True) s ∧ Below s input output)
    (fun {s s' n rest} ⟨hs, hb⟩ hpop hvisit => ?_)
    ⟨settling_start hg.coherent law, below_start hbot hd⟩ hrun).2
  obtain ⟨hn, hne⟩ := hs.queued (Agenda.pop?_eq_some hpop ▸ List.mem_cons_self)
  exact ⟨hs.visit hg.coherent law hpop hvisit,
    Below.visit (s := { s with agenda := rest }) hmeet htotal hgrows hd
      ⟨hb.entering, hb.leaving⟩ hn hne hvisit⟩

end Growing

/-- Every fact on the way is below any facts that give no node less than it needs. -/
theorem below_of_run (hg : g.Linked) (hmeet : ∀ f f', a.meet f f' = f ⊔ f')
    (htransfer : ∀ n ∈ g.nodes, ∀ f, a.transfer n f = .ok (t n f))
    (hmono : ∀ n ∈ g.nodes, Monotone (t n)) (hbot : IsBot a.initial)
    {limit : Nat} (hrun : run a g limit (start a g) = .ok s)
    (hd : Dominates a g input output) : Below s input output := by
  refine below_of_run_of_le hg hmeet (fun n hn f => ⟨t n f, htransfer n hn f⟩) hbot
    (fun n hn f o o' hle ho ho' => ?_) hrun hd
  cases (htransfer n hn f).symm.trans ho
  cases (htransfer n hn _).symm.trans ho'
  exact hmono n hn hle

/-! ## Facts in the end -/

section Solved

variable (hg : g.Linked) (hmeet : ∀ f f', a.meet f f' = f ⊔ f')
  (htransfer : ∀ n ∈ g.nodes, ∀ f, a.transfer n f = .ok (t n f))
  (hmono : ∀ n ∈ g.nodes, Monotone (t n)) (hbot : IsBot a.initial)
  (hs : Solved a g s.input s.output) (hin : Tabulates g s.input input)
  (hout : Tabulates g s.output output)

omit [DecidableEq ν] [DecidableEq φ] in
include htransfer hs hin hout in
theorem Solved.output_eq (hn : n ∈ g.nodes) (hne : n ≠ g.entry) : output n = t n (input n) := by
  obtain ⟨f, o, hf, ho, hfo⟩ := hs.transfer hn hne
  obtain ⟨-, rfl⟩ := hin.1 hf
  obtain ⟨-, rfl⟩ := hout.1 ho
  rw [htransfer n hn] at hfo
  exact (Except.ok.inj hfo).symm

omit [DecidableEq ν] [DecidableEq φ] in
include hmeet hbot hs hin in
theorem Solved.gather_le (hn : n ∈ g.nodes) (hne : n ≠ g.entry) :
    gather a g s.output n a.initial ≤ input n :=
  (gather_le_iff hmeet).2 ⟨hbot _, fun _ hm _ ho => hs.preds hn hne hm (hin.2 ⟨hn, rfl⟩) ho⟩

omit [DecidableEq φ] in
include hg hmeet htransfer hmono hbot hs hin hout in
/-- The facts in the end, computed once more, are not less than the equations ask for. -/
theorem Solved.dominates :
    Dominates a g (fun n => if n = g.entry then a.boundary else gather a g s.output n a.initial)
      (fun n => if n = g.entry then a.boundary else t n (gather a g s.output n a.initial)) where
  boundary := by simp
  preds {m n} hn hne hm := by
    have hm' := hg.preds_mem hn hm
    have hfound : output m ≤ gather a g s.output n a.initial :=
      ((gather_le_iff hmeet).1 le_rfl).2 m hm _ (hout.2 ⟨hm', rfl⟩)
    rw [if_neg hne]
    refine Preorder.le_trans _ _ _ ?_ hfound
    -- Less flows in than in the end, so less is put out.
    split
    · next hentry => exact hentry ▸ (hout.1 hs.boundary.2).2.le
    · next hentry =>
      rw [hs.output_eq htransfer hin hout hm' hentry]
      exact hmono m hm' (hs.gather_le hmeet hbot hin hm' hentry)
  transfer {n o} hn hne ho := by
    rw [if_neg hne] at ho ⊢
    rw [htransfer n hn] at ho
    exact (Except.ok.inj ho).ge

omit [DecidableEq φ] in
include hg hmeet htransfer hmono hbot hs hin hout in
theorem Solved.isSolution
    (hbelow : ∀ {input' output'}, Dominates a g input' output' → Below s input' output') :
    IsSolution a g input output where
  boundary := ⟨(hin.1 hs.boundary.1).2.symm, (hout.1 hs.boundary.2).2.symm⟩
  joins {n} hn hne := by
    have hle := (hbelow (hs.dominates hg hmeet htransfer hmono hbot hin hout)).entering
      (hin.2 ⟨hn, rfl⟩)
    rw [if_neg hne] at hle
    rw [hle.antisymm (hs.gather_le hmeet hbot hin hn hne)]
    exact isLUB_gather hmeet hbot hout fun m => hg.preds_mem hn
  transfer hn hne := by
    rw [hs.output_eq htransfer hin hout hn hne, htransfer _ hn]

end Solved

omit [SemilatticeSup φ] [DecidableEq ν] [DecidableEq φ] in
theorem exists_tabulates {table : ExtTreeMap ν φ} (other : φ)
    (hfound : ∀ {n}, n ∈ g.nodes → ∃ f, table[n]? = some f)
    (hmem : ∀ {n f}, table[n]? = some f → n ∈ g.nodes) : ∃ fact, Tabulates g table fact := by
  have hget : ∀ {n f}, table[n]? = some f → f = table.getD n other := by
    intro n f hf
    rw [ExtTreeMap.getD_eq_getD_getElem?, hf]
    rfl
  refine ⟨fun n => table.getD n other, fun {n f} => ⟨fun hf => ⟨hmem hf, hget hf⟩, ?_⟩⟩
  rintro ⟨hn, rfl⟩
  obtain ⟨f, hf⟩ := hfound hn
  exact hf.trans (congrArg some (hget hf))

omit [SemilatticeSup φ] [DecidableEq ν] [DecidableEq φ] in
theorem Tabulates.congr {table : ExtTreeMap ν φ} {fact fact' : ν → φ} (h : Tabulates g' table fact')
    (hnodes : ∀ {n}, n ∈ g.nodes ↔ n ∈ g'.nodes) (heq : ∀ {n}, n ∈ g.nodes → fact n = fact' n) :
    Tabulates g table fact := by
  intro n f
  rw [h, ← hnodes]
  exact and_congr_right fun hn => by rw [heq hn]

/-- Visits lead to the least facts that satisfy the equations. -/
theorem exists_run_least [WellFoundedGT φ] (hg : g.Linked) (hmeet : ∀ f f', a.meet f f' = f ⊔ f')
    (htransfer : ∀ n ∈ g.nodes, ∀ f, a.transfer n f = .ok (t n f))
    (hmono : ∀ n ∈ g.nodes, Monotone (t n)) (hbot : IsBot a.initial) :
    ∃ limit s input output, (∀ more, limit ≤ more → run a g more (start a g) = .ok s) ∧
      Tabulates g s.input input ∧ Tabulates g s.output output ∧
      IsLeastSolution a g input output := by
  have law : a.Closed g fun _ => True :=
    closed_of_transfer hmeet fun n hn f => ⟨t n f, htransfer n hn f⟩
  obtain ⟨limit, s, hrun, hsettling, hdone⟩ := exists_run hg.coherent law
  have hend := hrun limit le_rfl
  obtain ⟨hmemIn, hmemOut⟩ := mem_nodes_of_run hend
  obtain ⟨input, hin⟩ := exists_tabulates a.initial (fun hn => (hsettling.found hn).1) hmemIn
  obtain ⟨output, hout⟩ := exists_tabulates a.initial (fun hn => (hsettling.found hn).2) hmemOut
  have hbelow : ∀ {input' output'}, Dominates a g input' output' → Below s input' output' :=
    below_of_run hg hmeet htransfer hmono hbot hend
  refine ⟨limit, s, input, output, hrun, hin, hout,
    (hsettling.solved hdone).isSolution hg hmeet htransfer hmono hbot hin hout hbelow,
    fun hsol n hn => ?_⟩
  exact ⟨(hbelow hsol.dominates).entering (hin.2 ⟨hn, rfl⟩),
    (hbelow hsol.dominates).leaving (hout.2 ⟨hn, rfl⟩)⟩

/-- **Least solutions.** If what flows out of a node grows with what flows in and the initial fact
is the least one, then there are least facts that satisfy the equations, and solving finds these in
the graph and in every graph with the same nodes and edges in another order. -/
theorem exists_leastSolution [WellFoundedGT φ] (hg : g.Linked)
    (hmeet : ∀ f f', a.meet f f' = f ⊔ f')
    (htransfer : ∀ n ∈ g.nodes, ∀ f, a.transfer n f = .ok (t n f))
    (hmono : ∀ n ∈ g.nodes, Monotone (t n)) (hbot : IsBot a.initial) :
    ∃ input output, IsLeastSolution a (a.along g) input output ∧
      ∀ g', g.Alike g' → ∃ limit r, (∀ more, limit ≤ more → solve a g' more = .ok r) ∧
        Tabulates g (r.entering a.direction) input ∧
        Tabulates g (r.leaving a.direction) output := by
  have least : ∀ {g'}, g.Alike g' → ∃ limit s input output,
      (∀ more, limit ≤ more → run a (a.along g') more (start a (a.along g')) = .ok s) ∧
      Tabulates (a.along g') s.input input ∧ Tabulates (a.along g') s.output output ∧
      IsLeastSolution a (a.along g') input output := by
    intro g' h
    have hnodes : ∀ {n}, n ∈ (a.along g').nodes → n ∈ g.nodes := fun hn =>
      h.nodes.2 (a.nodes_along g' ▸ hn)
    exact exists_run_least ((h.linked hg).along a) hmeet (fun n hn => htransfer n (hnodes hn))
      (fun n hn => hmono n (hnodes hn)) hbot
  obtain ⟨-, -, input, output, -, -, -, hleast⟩ := least (.refl g)
  refine ⟨input, output, hleast, fun g' h => ?_⟩
  obtain ⟨limit, s, input', output', hrun, hin, hout, hleast'⟩ := least h
  have heq : ∀ {n}, n ∈ g.nodes → input n = input' n ∧ output n = output' n := fun hn =>
    hleast.eq_of_alike (h.along a) hleast' ((a.nodes_along g).symm ▸ hn)
  have hnodes : ∀ {n}, n ∈ g.nodes ↔ n ∈ (a.along g').nodes := by
    intro n
    rw [a.nodes_along]
    exact h.nodes
  refine ⟨limit, s.solution a.direction, fun more hmore => solve_of_run (hrun more hmore), ?_, ?_⟩
  · rw [entering_solution]
    exact hin.congr hnodes fun hn => (heq hn).1
  · rw [leaving_solution]
    exact hout.congr hnodes fun hn => (heq hn).2

/-- The edges of a diamond, and one back from its end to its start. -/
def diamondEdges : List (Vertex × Vertex) :=
  [(⟨0⟩, ⟨1⟩), (⟨0⟩, ⟨2⟩), (⟨1⟩, ⟨3⟩), (⟨2⟩, ⟨3⟩), (⟨3⟩, ⟨0⟩)]

def diamond : FlowGraph Vertex := .ofEdges (Id.range .vertices 4) ⟨0⟩ ⟨3⟩ diamondEdges

/-- A backward analysis that collects the numbers of nodes along the flow, from a number that no
node has. -/
def collecting : Analysis Vertex (Finset (Fin 5)) where
  direction := .backward
  boundary := {4}
  initial := ∅
  meet f f' := f ⊔ f'
  transfer n f := .ok (insert (Fin.ofNat 5 n.index) f)

theorem diamond_leastSolution :
    diamond.Alike (.ofEdges (Id.range .vertices 4).reverse ⟨0⟩ ⟨3⟩ diamondEdges.reverse) ∧
    ∃ input output, IsLeastSolution collecting diamond.reverse input output ∧
      ∀ g', diamond.Alike g' → ∃ limit r,
        (∀ more, limit ≤ more → solve collecting g' more = .ok r) ∧
        Tabulates diamond r.outFacts input ∧ Tabulates diamond r.inFacts output :=
  ⟨FlowGraph.alike_ofEdges (List.reverse_perm _).symm (List.reverse_perm _).symm _ _,
    exists_leastSolution (t := fun n f => insert (Fin.ofNat 5 n.index) f)
      (FlowGraph.linked_ofEdges (by decide) (by decide) (by decide)) (fun _ _ => rfl)
      (fun _ _ _ => rfl) (fun _ _ _ _ h => Finset.insert_subset_insert _ h)
      fun _ => Finset.empty_subset _⟩

end Dataflow

end ObjectFlow
