import ObjectFlow.Proofs.Graphs

/-!
# Tables of neighbours

A graph keeps its edges in one list, each edge once, and the neighbours of a node are read off that
list. The same neighbours are found in tables with a row for each node, into which edges are entered
one after the other as they come, unless they have been entered before. A row then lists what the
edges of the list that belong to it give (`Lists`).

This is shown for control flow graphs, where only one of several edges between two nodes counts
(`ControlFlow.tables_ofMethod`), for supergraphs, whose nodes ask for their edges in turn
(`Supergraph.exists_wire`), and for call graphs (`CallGraph.tables_ofEdges`). In each case a step
says what one edge does to the tables, and `holds_foldl` carries it through all edges.
-/

namespace ObjectFlow

open Std

/-! ## Rows -/

section

variable {α β κ : Type} [Keyed κ] {rows : ExtTreeMap κ (List β)}

/-- Add a value at the end of a row. -/
def addToRow (rows : ExtTreeMap κ (List β)) (k : κ) (b : β) : ExtTreeMap κ (List β) :=
  rows.insert k (rows.getD k [] ++ [b])

variable [DecidableEq κ] {key : α → κ} {f : α → β} {as : List α}

theorem getD_addToRow (rows : ExtTreeMap κ (List β)) (k k' : κ) (b : β) :
    (addToRow rows k b).getD k' [] = rows.getD k' [] ++ if k = k' then [b] else [] := by
  simp only [addToRow, ExtTreeMap.getD_insert, LawfulEqOrd.compare_eq_iff_eq]
  by_cases h : k = k'
  · simp [h]
  · simp [h]

/-- Each row lists, in their order, what the members of a list with the key of the row give. -/
def Lists (rows : ExtTreeMap κ (List β)) (key : α → κ) (f : α → β) (as : List α) : Prop :=
  ∀ k, rows.getD k [] = (as.filter (key · = k)).map f

theorem lists_empty : Lists (∅ : ExtTreeMap κ (List β)) key f [] := by
  intro k
  simp

theorem Lists.addToRow (h : Lists rows key f as) (a : α) :
    Lists (addToRow rows (key a) (f a)) key f (as ++ [a]) := by
  intro k
  rw [getD_addToRow, h, List.filter_append, List.map_append]
  by_cases hk : key a = k
  · simp [hk]
  · simp [hk]

theorem Lists.mem_iff (h : Lists rows key f as) {k : κ} {b : β} :
    b ∈ rows.getD k [] ↔ ∃ a ∈ as, key a = k ∧ f a = b := by
  rw [h, List.mem_map]
  simp [and_assoc]

end

/-- What holds of tables and of the edges that have been entered, and is kept when one more edge is
entered, holds when all edges have been entered. -/
theorem holds_foldl {ε α τ : Type} [Keyed α] {Holds : τ → Roster α → Prop} {add : τ → ε → τ}
    {f : ε → α} (hadd : ∀ {t r}, Holds t r → ∀ e, Holds (add t e) (r.insert (f e))) {t : τ}
    {r : Roster α} (h : Holds t r) (es : List ε) :
    Holds (es.foldl add t) (r.insertMany (es.map f)) := by
  induction es generalizing t r with
  | nil => exact h
  | cons e es ih => exact ih (hadd h e)

/-! ## Control flow graphs -/

namespace ControlFlow

/-- Where control may go to and come from. -/
structure NeighbourTables where
  succs : ExtTreeMap Node (List Node) := ∅
  preds : ExtTreeMap Node (List Node) := ∅

namespace NeighbourTables

/-- Enter an edge, unless another edge between its ends has been entered. -/
def add (t : NeighbourTables) (e : FlowEdge) : NeighbourTables :=
  if (t.succs.getD e.source []).contains e.target then t
  else { succs := addToRow t.succs e.source e.target, preds := addToRow t.preds e.target e.source }

structure Holds (t : NeighbourTables) (links : Roster (Node × Node)) : Prop where
  succs : Lists t.succs Prod.fst Prod.snd links.toList
  preds : Lists t.preds Prod.snd Prod.fst links.toList

theorem Holds.add {t : NeighbourTables} {links : Roster (Node × Node)} (h : t.Holds links)
    (e : FlowEdge) : (t.add e).Holds (links.insert (e.source, e.target)) := by
  have hguard : (t.succs.getD e.source []).contains e.target = true ↔
      links.contains (e.source, e.target) = true := by
    rw [List.contains_iff_mem, h.succs.mem_iff, Roster.contains_iff]
    constructor
    · rintro ⟨⟨source, target⟩, hmem, rfl, rfl⟩
      exact hmem
    · intro hmem
      exact ⟨_, hmem, rfl, rfl⟩
  unfold NeighbourTables.add
  by_cases hc : links.contains (e.source, e.target) = true
  · rw [if_pos (hguard.2 hc), Roster.insert_of_contains hc]
    exact h
  · rw [if_neg (hguard.not.2 hc)]
    constructor
    · rw [Roster.toList_insert, if_neg hc]
      exact h.succs.addToRow (e.source, e.target)
    · rw [Roster.toList_insert, if_neg hc]
      exact h.preds.addToRow (e.source, e.target)

end NeighbourTables

/-- The tables of a graph, filled with its edges in their order. -/
def tables (g : ControlFlow) : NeighbourTables := g.edges.foldl NeighbourTables.add {}

theorem tables_ofMethod (m : Method) (n : Node) :
    (ofMethod m).tables.succs.getD n [] = (ofMethod m).succs n ∧
      (ofMethod m).tables.preds.getD n [] = (ofMethod m).preds n := by
  have h : (ofMethod m).tables.Holds (.ofList ((edgesOf m).map fun e => (e.source, e.target))) :=
    holds_foldl NeighbourTables.Holds.add ⟨lists_empty, lists_empty⟩ (edgesOf m)
  constructor
  · rw [h.succs, succs, ← getD_groupBy]
    rfl
  · rw [h.preds, preds, ← getD_groupBy]
    rfl

end ControlFlow

/-! ## Supergraphs -/

namespace Supergraph

/-- The edges out of and into each node, and the nodes that follow it. -/
structure EdgeTables where
  outEdges : ExtTreeMap Node (List SuperEdge) := ∅
  inEdges : ExtTreeMap Node (List SuperEdge) := ∅
  succs : ExtTreeMap Node (List Node) := ∅

namespace EdgeTables

/-- Enter an edge, unless it has been entered. Its target follows its source from then on. -/
def add (t : EdgeTables) (e : SuperEdge) : EdgeTables :=
  if (t.outEdges.getD e.source []).contains e then t
  else
    { outEdges := addToRow t.outEdges e.source e
      inEdges := addToRow t.inEdges e.target e
      succs := if (t.succs.getD e.source []).contains e.target then t.succs
        else addToRow t.succs e.source e.target }

structure Holds (t : EdgeTables) (edges : Roster SuperEdge) : Prop where
  outEdges : Lists t.outEdges SuperEdge.source id edges.toList
  inEdges : Lists t.inEdges SuperEdge.target id edges.toList
  succs : ∀ n, t.succs.getD n [] =
    (Roster.ofList ((t.outEdges.getD n []).map (·.target))).toList

variable {t : EdgeTables} {edges : Roster SuperEdge}

/-- A row of followers gains the target of a new edge unless it has it. -/
theorem Holds.succs_addToRow (h : t.Holds edges) (e : SuperEdge) (n : Node) :
    (if (t.succs.getD e.source []).contains e.target then t.succs
      else addToRow t.succs e.source e.target).getD n [] =
    (Roster.ofList (((addToRow t.outEdges e.source e).getD n []).map (·.target))).toList := by
  by_cases hn : e.source = n
  · subst hn
    rw [getD_addToRow, if_pos rfl, List.map_append, List.map_cons, List.map_nil,
      Roster.ofList_concat, Roster.toList_insert, ← h.succs]
    have hiff : (t.succs.getD e.source []).contains e.target = true ↔
        (Roster.ofList ((t.outEdges.getD e.source []).map (·.target))).contains e.target =
          true := by
      rw [List.contains_iff_mem, Roster.contains_iff, h.succs]
    by_cases hc : (t.succs.getD e.source []).contains e.target = true
    · rw [if_pos hc, if_pos (hiff.1 hc)]
    · rw [if_neg hc, if_neg (hiff.not.1 hc), getD_addToRow, if_pos rfl]
  · rw [getD_addToRow, if_neg hn, List.append_nil, ← h.succs]
    split
    · rfl
    · rw [getD_addToRow, if_neg hn, List.append_nil]

theorem Holds.add (h : t.Holds edges) (e : SuperEdge) : (t.add e).Holds (edges.insert e) := by
  have hguard : (t.outEdges.getD e.source []).contains e = true ↔ edges.contains e = true := by
    rw [List.contains_iff_mem, h.outEdges.mem_iff, Roster.contains_iff]
    constructor
    · rintro ⟨e', hmem, -, rfl⟩
      exact hmem
    · intro hmem
      exact ⟨e, hmem, rfl, rfl⟩
  unfold EdgeTables.add
  by_cases hc : edges.contains e = true
  · rw [if_pos (hguard.2 hc), Roster.insert_of_contains hc]
    exact h
  · rw [if_neg (hguard.not.2 hc)]
    refine ⟨?_, ?_, h.succs_addToRow e⟩
    · rw [Roster.toList_insert, if_neg hc]
      exact h.outEdges.addToRow e
    · rw [Roster.toList_insert, if_neg hc]
      exact h.inEdges.addToRow e

theorem holds_foldl_add (es : List SuperEdge) :
    (es.foldl EdgeTables.add {}).Holds (.ofList es) := by
  have hempty : ({} : EdgeTables).Holds ∅ := by
    refine ⟨lists_empty, lists_empty, fun n => ?_⟩
    rw [ExtTreeMap.getD_empty, ExtTreeMap.getD_empty]
    rfl
  have h := holds_foldl (f := id) Holds.add hempty es
  rwa [List.map_id] at h

end EdgeTables

/-- The nodes and edges of a supergraph as far as they have been wired. -/
structure Wiring where
  nodes : List Node := []
  tables : EdgeTables := {}

variable (p : Program) (calls : CallGraph StmtId MethodId)

/-- Add a node of a method, and then its edges one after the other. -/
def wireNode (c : ControlFlow) (w : Wiring) (n : Node) : Except Fault Wiring := do
  return { nodes := w.nodes ++ [n], tables := (← edgesAt p calls c n).foldl .add w.tables }

/-- Add the nodes of the reachable methods, method by method. -/
def wire : Except Fault Wiring :=
  calls.reachable.toList.foldlM (fun w m => do
    let c ← ControlFlow.of p m
    c.nodes.foldlM (wireNode p calls c) w) {}

variable {p calls}

theorem wireNodes_eq_ok {c : ControlFlow} {ns : List Node} {lists : List (List SuperEdge)}
    (h : ns.mapM (edgesAt p calls c) = .ok lists) (w : Wiring) :
    ns.foldlM (wireNode p calls c) w =
      .ok ⟨w.nodes ++ ns, lists.flatten.foldl .add w.tables⟩ := by
  induction ns generalizing w lists with
  | nil =>
    obtain rfl := List.forall₂_nil_left_iff.1 (mapM_eq_ok.1 h)
    rw [List.append_nil]
    rfl
  | cons n ns ih =>
    obtain ⟨es, rest, hes, hrest, rfl⟩ := List.forall₂_cons_left_iff.1 (mapM_eq_ok.1 h)
    have hnode : wireNode p calls c w n =
        .ok ⟨w.nodes ++ [n], es.foldl .add w.tables⟩ := bind_eq_ok.2 ⟨es, hes, rfl⟩
    rw [List.foldlM_cons, hnode]
    show ns.foldlM (wireNode p calls c) _ = _
    rw [ih (mapM_eq_ok.2 hrest), List.flatten_cons, List.foldl_append, List.append_assoc]
    rfl

theorem wireMethods_eq_ok {ms : List MethodId} {graphs : List ControlFlow}
    {lists : List (List SuperEdge)} (hgraphs : ms.mapM (ControlFlow.of p) = .ok graphs)
    (hlists : graphs.mapM (fun c => do return (← c.nodes.mapM (edgesAt p calls c)).flatten) =
      .ok lists) (w : Wiring) :
    ms.foldlM (fun w m => do
      let c ← ControlFlow.of p m
      c.nodes.foldlM (wireNode p calls c) w) w =
        .ok ⟨w.nodes ++ graphs.flatMap (·.nodes), lists.flatten.foldl .add w.tables⟩ := by
  induction ms generalizing w graphs lists with
  | nil =>
    obtain rfl := List.forall₂_nil_left_iff.1 (mapM_eq_ok.1 hgraphs)
    obtain rfl := List.forall₂_nil_left_iff.1 (mapM_eq_ok.1 hlists)
    rw [List.flatMap_nil, List.append_nil]
    rfl
  | cons m ms ih =>
    obtain ⟨c, graphs, hc, hrest, rfl⟩ := List.forall₂_cons_left_iff.1 (mapM_eq_ok.1 hgraphs)
    obtain ⟨es, lists, hes, hothers, rfl⟩ := List.forall₂_cons_left_iff.1 (mapM_eq_ok.1 hlists)
    obtain ⟨ess, hess, hflatten⟩ := bind_eq_ok.1 hes
    obtain rfl := pure_eq_ok.1 hflatten
    rw [List.foldlM_cons, hc]
    show (c.nodes.foldlM (wireNode p calls c) w >>= _) = _
    rw [wireNodes_eq_ok hess]
    show ms.foldlM _ _ = _
    rw [ih (mapM_eq_ok.2 hrest) (mapM_eq_ok.2 hothers), List.flatten_cons, List.foldl_append,
      List.flatMap_cons, List.append_assoc]

/-- Wiring the nodes in turn leads to the nodes, the edges and the neighbours of the supergraph. -/
theorem exists_wire {g : Supergraph} (hg : ofCalls p calls = .ok g) :
    ∃ w, wire p calls = .ok w ∧ w.nodes = g.nodes ∧
      ∀ n, w.tables.outEdges.getD n [] = g.outEdges n ∧
        w.tables.inEdges.getD n [] = g.inEdges n ∧ w.tables.succs.getD n [] = g.succs n := by
  obtain ⟨graphs, hgraphs, h⟩ := bind_eq_ok.1 hg
  obtain ⟨lists, hlists, h⟩ := bind_eq_ok.1 h
  obtain rfl := pure_eq_ok.1 h
  refine ⟨_, wireMethods_eq_ok hgraphs hlists {}, rfl, fun n => ?_⟩
  have hholds := EdgeTables.holds_foldl_add lists.flatten
  have hout : (lists.flatten.foldl EdgeTables.add {}).outEdges.getD n [] =
      (groupBy (·.source) (Roster.ofList lists.flatten).toList).getD n [] := by
    rw [hholds.outEdges, List.map_id, getD_groupBy]
  refine ⟨hout, ?_, ?_⟩
  · show (lists.flatten.foldl EdgeTables.add {}).inEdges.getD n [] = (groupBy _ _).getD n []
    rw [hholds.inEdges, List.map_id, getD_groupBy]
  · show (lists.flatten.foldl EdgeTables.add {}).succs.getD n [] = _
    rw [hholds.succs, hout]
    rfl

end Supergraph

/-! ## Call graphs -/

namespace CallGraph

variable {σ μ : Type} [Keyed σ] [Keyed μ]

/-- The edges of a call graph, with the callees of each site and the callers of each method. -/
structure Tables (σ μ : Type) [Keyed σ] [Keyed μ] where
  edges : Roster (CallEdge σ μ) := ∅
  callees : ExtTreeMap σ (List μ) := ∅
  callers : ExtTreeMap μ (List σ) := ∅

/-- Enter an edge, unless it has been entered. -/
def Tables.add (t : Tables σ μ) (e : CallEdge σ μ) : Tables σ μ :=
  if t.edges.contains e then t
  else
    { edges := t.edges.insert e
      callees := addToRow t.callees e.site e.callee
      callers := addToRow t.callers e.callee e.site }

/-- The tables after edges have been asked for one after the other. -/
def Tables.ofEdges (asked : List (CallEdge σ μ)) : Tables σ μ := asked.foldl Tables.add {}

structure Tables.Holds [DecidableEq σ] [DecidableEq μ] (t : Tables σ μ)
    (entered : Roster (CallEdge σ μ)) : Prop where
  edges : t.edges = entered
  callees : Lists t.callees CallEdge.site CallEdge.callee entered.toList
  callers : Lists t.callers CallEdge.callee CallEdge.site entered.toList

variable [DecidableEq σ] [DecidableEq μ]

theorem Tables.Holds.add {t : Tables σ μ} {entered : Roster (CallEdge σ μ)} (h : t.Holds entered)
    (e : CallEdge σ μ) : (t.add e).Holds (entered.insert e) := by
  obtain rfl := h.edges
  unfold Tables.add
  by_cases hc : t.edges.contains e = true
  · rw [if_pos hc, Roster.insert_of_contains hc]
    exact h
  · rw [if_neg hc]
    refine ⟨rfl, ?_, ?_⟩
    · rw [Roster.toList_insert, if_neg hc]
      exact h.callees.addToRow e
    · rw [Roster.toList_insert, if_neg hc]
      exact h.callers.addToRow e

/-- Whichever edges have been asked for, and however often, the tables have the callees and callers
of the call graph that they lead to. -/
theorem tables_ofEdges {g : CallGraph σ μ} {asked : List (CallEdge σ μ)}
    (h : (Roster.ofList asked).toList = g.edges.toList) :
    (Tables.ofEdges asked).edges.toList = g.edges.toList ∧
      (∀ site, (Tables.ofEdges asked).callees.getD site [] = g.callees site) ∧
      ∀ m, (Tables.ofEdges asked).callers.getD m [] = g.callers m := by
  have hempty : ({} : Tables σ μ).Holds ∅ := ⟨rfl, lists_empty, lists_empty⟩
  obtain ⟨hedges, hcallees, hcallers⟩ := holds_foldl (f := id) Tables.Holds.add hempty asked
  rw [List.map_id, ← Roster.ofList] at hedges hcallees hcallers
  rw [h] at hcallees hcallers
  exact ⟨by rw [Tables.ofEdges, hedges, h], hcallees, hcallers⟩

end CallGraph

end ObjectFlow
