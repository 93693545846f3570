import ObjectFlow.Proofs.Coincidence
import ObjectFlow.Proofs.Neighbours
import ObjectFlow.Proofs.Safety

/-!
# Supergraphs are the connected control flow graphs

The supergraph along a call graph has the nodes of the control flow graphs of the reachable methods,
and `Supergraph.Joins` lists its edges: the steps within methods, the steps past calls, and the
calls and returns of each callee. What is looked up by source and by target is the same set of edges
(`Supergraph.Connects`). This holds along the call graph of the hierarchy and along what a finished
points-to analysis has found (`CallGraph.Found`). In both the callees of a reachable method are
reachable, so no edge leads out of the nodes.
-/

namespace ObjectFlow

open PointsTo

/-- The members of a roster are those of the list, with every repetition left out. -/
theorem Roster.toList_ofList_eq_eraseDups {α : Type} [Keyed α] [DecidableEq α] (as : List α) :
    (ofList as).toList = as.eraseDups := by
  induction as using List.reverseRecOn with
  | nil => rfl
  | append_singleton as a ih =>
    rw [ofList_concat, toList_insert, ih, List.eraseDups_append]
    by_cases ha : a ∈ as
    · have hin : (ofList as).contains a = true := contains_iff.2 (mem_ofList.2 ha)
      simp [hin, List.removeAll, ha]
    · have hout : ¬(ofList as).contains a = true := fun h => ha (mem_ofList.1 (contains_iff.1 h))
      simp [hout, List.removeAll, ha, List.eraseDups_cons]

namespace CallGraph

variable {p : Program} {calls : CallGraph StmtId MethodId}

/-- The call graphs of a program: that of the class hierarchy, and those of finished points-to
analyses without their contexts. -/
inductive Found (p : Program) : CallGraph StmtId MethodId → Prop
  | hierarchical {calls : CallGraph StmtId MethodId} : hierarchical p = .ok calls → Found p calls
  | pointsTo {r : Result} : r.IsOutcome p → Found p r.plainCalls

theorem Found.exists_method (hp : p.Accepted) (h : Found p calls) {m : MethodId}
    (hm : m ∈ calls.reachable.toList) : ∃ method, p.method m = .ok method := by
  cases h with
  | hierarchical h =>
    obtain ⟨g, hg, hfollows⟩ := exists_follows hp
    cases hg.symm.trans h
    exact hfollows.methods m hm
  | pointsTo hr => exact (hr.coherent hp).methods hm

theorem Found.callee_mem (hp : p.Accepted) (h : Found p calls) {site : StmtId} {m : MethodId}
    (hm : m ∈ calls.callees site) : m ∈ calls.reachable.toList := by
  cases h with
  | hierarchical h =>
    obtain ⟨g, hg, hfollows⟩ := exists_follows hp
    cases hg.symm.trans h
    obtain ⟨e, he, rfl⟩ := List.mem_map.1 hm
    exact hfollows.callees e (List.mem_of_mem_filter he)
  | pointsTo hr => exact (hr.coherent hp).callees hm

end CallGraph

namespace Supergraph

open ControlFlow

variable {p : Program} {calls : CallGraph StmtId MethodId} {g : Supergraph}

/-! ## Nothing is listed twice -/

/-- There is one graph for each method, in order. -/
theorem map_method_of_mapM (hp : p.Accepted) {ms : List MethodId} {graphs : List ControlFlow}
    (h : ms.mapM (ControlFlow.of p) = .ok graphs) : graphs.map (·.method) = ms := by
  induction ms generalizing graphs with
  | nil =>
    obtain rfl := pure_eq_ok.1 h
    rfl
  | cons m ms ih =>
    obtain ⟨c, rest, hc, hrest, rfl⟩ := List.forall₂_cons_left_iff.1 (mapM_eq_ok.1 h)
    obtain ⟨method, hmethod, rfl⟩ := of_eq_ok.1 hc
    rw [List.map_cons, ih (mapM_eq_ok.2 hrest)]
    exact congrArg (· :: ms) (Program.id_of_method hp hmethod)

/-- Nodes of different methods are different, and a method is reachable once. -/
theorem nodup_nodes (hp : p.Accepted) (hg : ofCalls p calls = .ok g) : g.nodes.Nodup := by
  obtain ⟨graphs, hgraphs, h⟩ := bind_eq_ok.1 hg
  obtain ⟨lists, -, h⟩ := bind_eq_ok.1 h
  obtain rfl := pure_eq_ok.1 h
  have hgraph : ∀ c ∈ graphs, ∃ method, ofMethod method = c := by
    intro c hc
    obtain ⟨m, -, hof⟩ := (mem_of_mapM hgraphs).1 hc
    obtain ⟨method, -, hmethod⟩ := of_eq_ok.1 hof
    exact ⟨method, hmethod⟩
  have hmethod : ∀ c ∈ graphs, ∀ n ∈ c.nodes, n.method = c.method := by
    intro c hc n hn
    obtain ⟨method, rfl⟩ := hgraph c hc
    exact method_of_mem_nodesOf hn
  have hdistinct : graphs.Pairwise fun c c' => c.method ≠ c'.method := by
    rw [← List.pairwise_map (R := (· ≠ ·)), map_method_of_mapM hp hgraphs]
    exact calls.reachable.nodup_toList
  refine List.nodup_flatMap.2 ⟨fun c hc => ?_, hdistinct.imp_of_mem ?_⟩
  · obtain ⟨method, rfl⟩ := hgraph c hc
    exact nodup_nodesOf method
  · intro c c' hc hc' hne n hn hn'
    exact hne ((hmethod c hc n hn).symm.trans (hmethod c' hc' n hn'))

theorem nodup_edges (hg : ofCalls p calls = .ok g) : g.edges.Nodup := by
  obtain ⟨graphs, -, h⟩ := bind_eq_ok.1 hg
  obtain ⟨lists, -, h⟩ := bind_eq_ok.1 h
  obtain rfl := pure_eq_ok.1 h
  exact Roster.nodup_toList _

theorem outEdges_eq (hg : ofCalls p calls = .ok g) (n : Node) :
    g.outEdges n = g.edges.filter (·.source = n) := by
  rw [outEdges, (groups_of_ofCalls hg).1, getD_groupBy]

theorem inEdges_eq (hg : ofCalls p calls = .ok g) (n : Node) :
    g.inEdges n = g.edges.filter (·.target = n) := by
  rw [inEdges, (groups_of_ofCalls hg).2, getD_groupBy]

/-! ## Connected graphs -/

/-- A supergraph consists of the control flow graphs of the reachable methods, joined at calls. An
edge is found from its source and from its target, and what follows a node are the targets of the
edges out of it in the order of these edges. Wiring the nodes one after the other gives the same. -/
structure Connects (p : Program) (calls : CallGraph StmtId MethodId) (g : Supergraph) : Prop where
  entries : g.entries = calls.entries.toList
  nodes : ∀ {n}, n ∈ g.nodes ↔
    ∃ m ∈ calls.reachable.toList, ∃ c, ControlFlow.of p m = .ok c ∧ n ∈ c.nodes
  nodup_nodes : g.nodes.Nodup
  edges : ∀ {n e}, e ∈ g.outEdges n ↔ e.source = n ∧
    ∃ m ∈ calls.reachable.toList, ∃ method, p.method m = .ok method ∧ Joins p calls method e
  inEdges : ∀ {n e}, e ∈ g.inEdges n ↔ e.target = n ∧ e ∈ g.outEdges e.source
  nodup_outEdges : ∀ n, (g.outEdges n).Nodup
  nodup_inEdges : ∀ n, (g.inEdges n).Nodup
  ends : ∀ {n e}, e ∈ g.outEdges n → e.source ∈ g.nodes ∧ e.target ∈ g.nodes
  succs : ∀ n, g.succs n = ((g.outEdges n).map (·.target)).eraseDups
  nodup_succs : ∀ n, (g.succs n).Nodup
  wired : ∃ w, wire p calls = .ok w ∧ w.nodes = g.nodes ∧
    ∀ n, w.tables.outEdges.getD n [] = g.outEdges n ∧
      w.tables.inEdges.getD n [] = g.inEdges n ∧ w.tables.succs.getD n [] = g.succs n

/-- **Connection at calls.** The control flow graphs of an accepted program can be connected along
each of its call graphs, and the supergraph consists of them and of what joins them. -/
theorem exists_connects (hp : p.Accepted) (hcalls : CallGraph.Found p calls) :
    ∃ g, ofCalls p calls = .ok g ∧ Connects p calls g := by
  obtain ⟨g, hg, hspans⟩ := exists_ofCalls hp fun m hm => hcalls.exists_method hp hm
  have hout : ∀ {n e}, e ∈ g.outEdges n ↔ e ∈ g.edges ∧ e.source = n := by
    intro n e
    rw [outEdges_eq hg, List.mem_filter, decide_eq_true_iff]
  have hsource : ∀ {e}, e ∈ g.outEdges e.source ↔ e ∈ g.edges := hout.trans (and_iff_left rfl)
  refine ⟨g, hg, hspans.entries, fun {n} => ?_, nodup_nodes hp hg, fun {n e} => ?_,
    fun {n e} => ?_, fun n => ?_, fun n => ?_, fun {n e} he => ?_, fun n => ?_,
    fun n => Roster.nodup_toList _, exists_wire hg⟩
  · rw [hspans.nodes]
    constructor
    · rintro ⟨m, hm, method, hmethod, hn⟩
      exact ⟨m, hm, _, of_eq_ok.2 ⟨method, hmethod, rfl⟩, hn⟩
    · rintro ⟨m, hm, c, hc, hn⟩
      obtain ⟨method, hmethod, rfl⟩ := of_eq_ok.1 hc
      exact ⟨m, hm, method, hmethod, hn⟩
  · rw [hout, hspans.edges, and_comm]
  · rw [hsource, hspans.inEdges, and_comm]
  · rw [outEdges_eq hg]
    exact (nodup_edges hg).filter _
  · rw [inEdges_eq hg]
    exact (nodup_edges hg).filter _
  · exact hspans.ends_mem hp (hcalls.exists_method hp) (hcalls.callee_mem hp) (hout.1 he).1
  · exact Roster.toList_ofList_eq_eraseDups _

/-- A method of `nesting` that calls itself is called from two places and returns to both, whether
its calls are found in the hierarchy or by an analysis. -/
theorem nesting_connects :
    (∃ calls g, CallGraph.hierarchical (.index Program.nesting) = .ok calls ∧
      ofCalls (.index Program.nesting) calls = .ok g ∧ g.nodes.length = 12 ∧
      g.outEdges (.exit ⟨1⟩) = [⟨.ret ⟨⟨0⟩, 1⟩, .exit ⟨1⟩, .stmt ⟨⟨0⟩, 2⟩⟩,
        ⟨.ret ⟨⟨1⟩, 0⟩, .exit ⟨1⟩, .exit ⟨1⟩⟩] ∧
      Connects (.index Program.nesting) calls g) ∧
    ∃ (r : Result) (g : Supergraph), r.IsOutcome (.index Program.nesting) ∧
      ofCalls (.index Program.nesting) r.plainCalls = .ok g ∧
      g.inEdges (.entry ⟨1⟩) = [⟨.call, .stmt ⟨⟨0⟩, 1⟩, .entry ⟨1⟩⟩,
        ⟨.call, .stmt ⟨⟨1⟩, 0⟩, .entry ⟨1⟩⟩] ∧
      Connects (.index Program.nesting) r.plainCalls g := by
  obtain ⟨calls, hcalls, htest⟩ := exists_ok_of_any
    (CallGraph.hierarchical (.index Program.nesting))
    (fun calls => (ofCalls (.index Program.nesting) calls).toOption.any fun (g : Supergraph) =>
      decide (g.nodes.length = 12 ∧
        g.outEdges (.exit ⟨1⟩) = [⟨.ret ⟨⟨0⟩, 1⟩, .exit ⟨1⟩, .stmt ⟨⟨0⟩, 2⟩⟩,
          ⟨.ret ⟨⟨1⟩, 0⟩, .exit ⟨1⟩, .exit ⟨1⟩⟩])) (by decide +kernel)
  obtain ⟨r, hr, hrtest⟩ := exists_ok_of_any
    (analyze (.index Program.nesting) { sensitivity := .insensitive } 100)
    (fun r => (ofCalls (.index Program.nesting) r.plainCalls).toOption.any fun (g : Supergraph) =>
      decide (g.inEdges (.entry ⟨1⟩) = [⟨.call, .stmt ⟨⟨0⟩, 1⟩, .entry ⟨1⟩⟩,
        ⟨.call, .stmt ⟨⟨1⟩, 0⟩, .entry ⟨1⟩⟩])) (by decide +kernel)
  have hout := Result.isOutcome_of_analyze hr
  obtain ⟨g, hg, hconnects⟩ := exists_connects Program.nesting_accepted (.hierarchical hcalls)
  obtain ⟨h, hh, hhconnects⟩ := exists_connects Program.nesting_accepted (.pointsTo hout)
  obtain ⟨g', hg', hgtest⟩ := exists_ok_of_any _ _ htest
  obtain ⟨h', hh', hhtest⟩ := exists_ok_of_any _ _ hrtest
  cases hg.symm.trans hg'
  cases hh.symm.trans hh'
  obtain ⟨hnodes, hreturns⟩ := of_decide_eq_true hgtest
  exact ⟨⟨calls, g, hcalls, hg, hnodes, hreturns, hconnects⟩, r, h, hout, hh,
    of_decide_eq_true hhtest, hhconnects⟩

end Supergraph

end ObjectFlow
