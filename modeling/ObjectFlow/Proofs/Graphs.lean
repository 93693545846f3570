import ObjectFlow.ControlFlow.Supergraph
import ObjectFlow.Proofs.Computations
import ObjectFlow.Proofs.Solving

/-!
# Control flow graphs and supergraphs

Control flow graphs are coherent (`ControlFlow.coherent`). A supergraph has the nodes of the
reachable methods, and its edges are the steps within methods, the steps past calls, and the calls
and returns (`Supergraph.Spans`).
-/

namespace ObjectFlow

open Std

theorem Program.id_of_method {p : Program} (hp : p.Accepted) {m : MethodId} {method : Method}
    (h : p.method m = .ok method) : method.id = m := by
  obtain ⟨d, -, rfl⟩ := (Program.method_eq_ok hp).1 h
  rfl

/-- The members of a group are told apart by what the group does not fix. -/
theorem nodup_map_groupBy {α β κ : Type} [Keyed κ] [DecidableEq κ] {f : α → κ} {g : α → β}
    {as : List α} (has : as.Nodup) (hinj : ∀ a b, f a = f b → g a = g b → a = b) (k : κ) :
    (((groupBy f as).getD k []).map g).Nodup := by
  rw [getD_groupBy]
  refine List.Nodup.map_on (fun a ha b hb hab => ?_) (has.filter _)
  have hk : f a = k := of_decide_eq_true (List.mem_filter.1 ha).2
  have hk' : f b = k := of_decide_eq_true (List.mem_filter.1 hb).2
  exact hinj a b (hk.trans hk'.symm) hab

namespace ControlFlow

variable {m : Method} {n next : Node}

/-! ## Steps of control -/

theorem mem_links : (n, next) ∈ (ofMethod m).links ↔
    ∃ e ∈ edgesOf m, e.source = n ∧ e.target = next := by
  show (n, next) ∈ (Roster.ofList ((edgesOf m).map fun e => (e.source, e.target))).toList ↔ _
  rw [Roster.mem_ofList]
  simp

theorem mem_succs : next ∈ (ofMethod m).succs n ↔
    ∃ e ∈ edgesOf m, e.source = n ∧ e.target = next := by
  rw [← mem_links]
  show next ∈ ((groupBy (·.1) (ofMethod m).links).getD n []).map (·.2) ↔ _
  rw [getD_groupBy]
  simp

theorem mem_preds : n ∈ (ofMethod m).preds next ↔
    ∃ e ∈ edgesOf m, e.source = n ∧ e.target = next := by
  rw [← mem_links]
  show n ∈ ((groupBy (·.2) (ofMethod m).links).getD next []).map (·.1) ↔ _
  rw [getD_groupBy]
  simp

theorem mem_nodesOf : n ∈ nodesOf m ↔
    n = .entry m.id ∨ (∃ site s, (site, s) ∈ m.stmts ∧ n = .stmt site) ∨ n = .exit m.id := by
  simp only [nodesOf, List.cons_append, List.mem_cons, List.mem_append, List.mem_map,
    Prod.exists, List.not_mem_nil, or_false]
  constructor
  · rintro (h | ⟨site, s, hs, rfl⟩ | h)
    · exact Or.inl h
    · exact Or.inr (Or.inl ⟨site, s, hs, rfl⟩)
    · exact Or.inr (Or.inr h)
  · rintro (h | ⟨site, s, hs, rfl⟩ | h)
    · exact Or.inl h
    · exact Or.inr (Or.inl ⟨site, s, hs, rfl⟩)
    · exact Or.inr (Or.inr h)

theorem method_of_mem_nodesOf (h : n ∈ nodesOf m) : n.method = m.id := by
  rcases mem_nodesOf.1 h with rfl | ⟨site, s, hs, rfl⟩ | rfl
  · rfl
  · exact (Model.mem_stmts.1 hs).1
  · rfl

/-- Control goes to a statement or to the exit. -/
theorem nodeAt_mem (i : Nat) : nodeAt m.id m.decl.body.size i ∈ nodesOf m ∧
    nodeAt m.id m.decl.body.size i ≠ .entry m.id := by
  unfold nodeAt
  split
  · next h =>
    have hs : (⟨m.id, i⟩, m.decl.body[i]) ∈ m.stmts :=
      Model.mem_stmts.2 ⟨rfl, Array.getElem?_eq_getElem h⟩
    exact ⟨mem_nodesOf.2 (Or.inr (Or.inl ⟨_, _, hs, rfl⟩)), by simp⟩
  · exact ⟨mem_nodesOf.2 (Or.inr (Or.inr rfl)), by simp⟩

theorem steps_mem {i : Nat} {s : Stmt} {kind : FlowKind}
    (h : (kind, next) ∈ steps m.id m.decl.body.size i s) :
    next ∈ nodesOf m ∧ next ≠ .entry m.id := by
  have hexit : Node.exit m.id ∈ nodesOf m ∧ Node.exit m.id ≠ .entry m.id :=
    ⟨mem_nodesOf.2 (Or.inr (Or.inr rfl)), by simp⟩
  unfold steps at h
  split at h
  · obtain ⟨-, rfl⟩ := Prod.mk.inj (List.mem_singleton.1 h)
    exact nodeAt_mem _
  · rcases List.mem_cons.1 h with h | h
    · cases h
      exact nodeAt_mem _
    · cases List.mem_singleton.1 h
      exact nodeAt_mem _
  · rcases List.mem_append.1 h with h | h
    · obtain ⟨c, -, hc⟩ := List.mem_map.1 h
      cases hc
      exact nodeAt_mem _
    · cases List.mem_singleton.1 h
      exact nodeAt_mem _
  · cases List.mem_singleton.1 h
    exact hexit
  · cases List.mem_singleton.1 h
    exact nodeAt_mem _

theorem edgesOf_mem {e : FlowEdge} (h : e ∈ edgesOf m) :
    e.source ∈ nodesOf m ∧ e.target ∈ nodesOf m ∧ e.target ≠ .entry m.id := by
  rcases List.mem_cons.1 h with rfl | h
  · exact ⟨mem_nodesOf.2 (Or.inl rfl), nodeAt_mem 0⟩
  · obtain ⟨⟨site, s⟩, hs, h⟩ := List.mem_flatMap.1 h
    obtain ⟨⟨kind, target⟩, hstep, rfl⟩ := List.mem_map.1 h
    exact ⟨mem_nodesOf.2 (Or.inr (Or.inl ⟨site, s, hs, rfl⟩)), steps_mem hstep⟩

theorem succs_mem (h : next ∈ (ofMethod m).succs n) :
    n ∈ nodesOf m ∧ next ∈ nodesOf m ∧ next ≠ .entry m.id := by
  obtain ⟨e, he, rfl, rfl⟩ := mem_succs.1 h
  exact edgesOf_mem he

theorem method_of_succs (h : next ∈ (ofMethod m).succs n) : next.method = n.method := by
  rw [method_of_mem_nodesOf (succs_mem h).2.1, method_of_mem_nodesOf (succs_mem h).1]

theorem nodup_nodesOf (m : Method) : (nodesOf m).Nodup := by
  have hstmts : (m.stmts.map fun s => Node.stmt s.1).Nodup := by
    have hsites : m.stmts.map (fun s => Node.stmt s.1) =
        (List.range m.decl.body.size).map fun i => Node.stmt ⟨m.id, i⟩ := by
      refine List.ext_getElem ?_ fun i _ _ => ?_
      · simp [Method.stmts, MethodDecl.stmts]
      · simp [Method.stmts, MethodDecl.stmts]
    rw [hsites]
    refine List.nodup_range.map fun i j h => ?_
    cases h
    rfl
  show (Node.entry m.id :: (m.stmts.map fun s => Node.stmt s.1) ++ [Node.exit m.id]).Nodup
  rw [List.cons_append, List.nodup_cons, List.nodup_append]
  refine ⟨by simp, hstmts, List.nodup_singleton _, fun a ha b hb => ?_⟩
  obtain ⟨s, -, rfl⟩ := List.mem_map.1 ha
  obtain rfl := List.mem_singleton.1 hb
  exact Node.noConfusion

theorem nodup_succs : ((ofMethod m).succs n).Nodup :=
  nodup_map_groupBy (Roster.nodup_toList _) (fun _ _ hsource htarget => Prod.ext hsource htarget) n

theorem nodup_preds : ((ofMethod m).preds n).Nodup :=
  nodup_map_groupBy (Roster.nodup_toList _) (fun _ _ htarget hsource => Prod.ext hsource htarget) n

theorem coherent (m : Method) : (ofMethod m).graph.Coherent where
  entry_mem := mem_nodesOf.2 (Or.inl rfl)
  succs_mem _ h := (succs_mem h).2.1
  mem_preds := mem_preds.trans mem_succs.symm

end ControlFlow

/-! ## Supergraphs -/

namespace Supergraph

open ControlFlow

variable {p : Program} {calls : CallGraph StmtId MethodId} {g : Supergraph} {n next : Node}

/-- The edges that belong to a node of a reachable method. -/
inductive Joins (p : Program) (calls : CallGraph StmtId MethodId) (m : Method) : SuperEdge → Prop
  | normal {n next : Node} : next ∈ (ofMethod m).succs n →
      (∀ site call, n = .stmt site → p.stmt site ≠ .ok (.invoke call)) →
      Joins p calls m ⟨.normal, n, next⟩
  | callToReturn {site : StmtId} {call : Invoke} {next : Node} : p.stmt site = .ok (.invoke call) →
      next ∈ (ofMethod m).succs (.stmt site) → Joins p calls m ⟨.callToReturn, .stmt site, next⟩
  | call {site : StmtId} {call : Invoke} {callee : MethodId} : Node.stmt site ∈ nodesOf m →
      p.stmt site = .ok (.invoke call) → callee ∈ calls.callees site →
      Joins p calls m ⟨.call, .stmt site, .entry callee⟩
  | ret {site : StmtId} {call : Invoke} {callee : MethodId} {next : Node} :
      p.stmt site = .ok (.invoke call) → callee ∈ calls.callees site →
      next ∈ (ofMethod m).succs (.stmt site) → Joins p calls m ⟨.ret site, .exit callee, next⟩

section

variable (hp : p.Accepted) {m : MethodId} {method : Method} (hm : p.method m = .ok method)
include hp hm

theorem callSite?_cases (hn : n ∈ nodesOf method) :
    callSite? p n = .ok none ∧ (∀ site call, n = .stmt site → p.stmt site ≠ .ok (.invoke call)) ∨
      ∃ site call, n = .stmt site ∧ p.stmt site = .ok (.invoke call) ∧
        callSite? p n = .ok (some site) := by
  rcases mem_nodesOf.1 hn with rfl | ⟨site, s, hs, rfl⟩ | rfl
  · exact Or.inl ⟨rfl, fun _ _ h => by cases h⟩
  · obtain ⟨-, hst⟩ := (Program.mem_stmts hp hm).1 hs
    have hsite : callSite? p (.stmt site) = .ok (if s.call?.isSome then some site else none) :=
      bind_eq_ok.2 ⟨s.call?, Program.invoke?_eq_ok.2 ⟨s, hst, rfl⟩, rfl⟩
    cases hc : s.call? with
    | none =>
      refine Or.inl ⟨by rw [hsite, hc]; rfl, fun site' call h hcall => ?_⟩
      cases h
      rw [hst] at hcall
      cases hcall
      cases hc
    | some call =>
      obtain rfl : s = .invoke call := by
        cases s <;> simp only [Stmt.call?, reduceCtorEq, Option.some.injEq] at hc
        rw [hc]
      exact Or.inr ⟨site, call, rfl, hst, hsite⟩
  · exact Or.inl ⟨rfl, fun _ _ h => by cases h⟩

theorem edgesAt_eq_ok (calls : CallGraph StmtId MethodId) (hn : n ∈ nodesOf method) :
    ∃ es, edgesAt p calls (ofMethod method) n = .ok es := by
  rcases callSite?_cases hp hm hn with ⟨h, -⟩ | ⟨site, call, -, -, h⟩
  · exact ⟨_, bind_eq_ok.2 ⟨none, h, rfl⟩⟩
  · exact ⟨_, bind_eq_ok.2 ⟨some site, h, rfl⟩⟩

theorem mem_edgesAt (hn : n ∈ nodesOf method) {es : List SuperEdge}
    (h : edgesAt p calls (ofMethod method) n = .ok es) {e : SuperEdge} (he : e ∈ es) :
    Joins p calls method e := by
  obtain ⟨found, hfound, h⟩ := bind_eq_ok.1 h
  rcases callSite?_cases hp hm hn with ⟨hsite, hno⟩ | ⟨site, call, rfl, hst, hsite⟩
  · rw [hsite] at hfound
    cases hfound
    cases h
    obtain ⟨next, hnext, rfl⟩ := List.mem_map.1 he
    exact .normal hnext hno
  · rw [hsite] at hfound
    cases hfound
    cases h
    rcases List.mem_append.1 he with he | he
    · obtain ⟨next, hnext, rfl⟩ := List.mem_map.1 he
      exact .callToReturn hst hnext
    · obtain ⟨callee, hcallee, he⟩ := List.mem_flatMap.1 he
      rcases List.mem_cons.1 he with rfl | he
      · exact .call hn hst hcallee
      · obtain ⟨next, hnext, rfl⟩ := List.mem_map.1 he
        exact .ret hst hcallee hnext

/-- The edges at a call. -/
theorem edgesAt_of_call {site : StmtId} {call : Invoke} (hn : Node.stmt site ∈ nodesOf method)
    (hst : p.stmt site = .ok (.invoke call)) {es : List SuperEdge}
    (h : edgesAt p calls (ofMethod method) (.stmt site) = .ok es) :
    es = ((ofMethod method).succs (.stmt site)).map (fun next => ⟨.callToReturn, .stmt site, next⟩)
      ++ (calls.callees site).flatMap fun callee => ⟨.call, .stmt site, .entry callee⟩ ::
        ((ofMethod method).succs (.stmt site)).map fun next => ⟨.ret site, .exit callee, next⟩ := by
  obtain ⟨found, hfound, h⟩ := bind_eq_ok.1 h
  rcases callSite?_cases hp hm hn with ⟨-, hno⟩ | ⟨site', call', heq, -, hsite⟩
  · exact absurd hst (hno site call rfl)
  · cases heq
    rw [hsite] at hfound
    cases hfound
    exact (pure_eq_ok.1 h).symm

/-- Each of the edges belongs to some node. -/
theorem exists_edgesAt {e : SuperEdge} (he : Joins p calls method e) :
    ∃ n ∈ nodesOf method, ∀ es, edgesAt p calls (ofMethod method) n = .ok es → e ∈ es := by
  cases he with
  | @normal n next hnext hno =>
    have hn := (succs_mem hnext).1
    refine ⟨n, hn, fun es h => ?_⟩
    obtain ⟨found, hfound, h⟩ := bind_eq_ok.1 h
    rcases callSite?_cases hp hm hn with ⟨hsite, -⟩ | ⟨site, call, rfl, hst, -⟩
    · rw [hsite] at hfound
      cases hfound
      obtain rfl := pure_eq_ok.1 h
      exact List.mem_map.2 ⟨next, hnext, rfl⟩
    · exact absurd hst (hno site call rfl)
  | @callToReturn site call next hst hnext =>
    refine ⟨.stmt site, (succs_mem hnext).1, fun es h => ?_⟩
    rw [edgesAt_of_call hp hm (succs_mem hnext).1 hst h]
    exact List.mem_append_left _ (List.mem_map.2 ⟨next, hnext, rfl⟩)
  | @call site call callee hn hst hcallee =>
    refine ⟨.stmt site, hn, fun es h => ?_⟩
    rw [edgesAt_of_call hp hm hn hst h]
    exact List.mem_append_right _ (List.mem_flatMap.2 ⟨callee, hcallee, List.mem_cons_self⟩)
  | @ret site call callee next hst hcallee hnext =>
    refine ⟨.stmt site, (succs_mem hnext).1, fun es h => ?_⟩
    rw [edgesAt_of_call hp hm (succs_mem hnext).1 hst h]
    exact List.mem_append_right _ (List.mem_flatMap.2
      ⟨callee, hcallee, List.mem_cons_of_mem _ (List.mem_map.2 ⟨next, hnext, rfl⟩)⟩)

end

/-- What a supergraph is made of: the nodes of the reachable methods, and the edges between them. -/
structure Spans (p : Program) (calls : CallGraph StmtId MethodId) (g : Supergraph) : Prop where
  entries : g.entries = calls.entries.toList
  nodes : ∀ {n}, n ∈ g.nodes ↔
    ∃ m ∈ calls.reachable.toList, ∃ method, p.method m = .ok method ∧ n ∈ nodesOf method
  edges : ∀ {e}, e ∈ g.edges ↔
    ∃ m ∈ calls.reachable.toList, ∃ method, p.method m = .ok method ∧ Joins p calls method e
  inEdges : ∀ {n e}, e ∈ g.inEdges n ↔ e ∈ g.edges ∧ e.target = n
  succs : ∀ {n next}, next ∈ g.succs n ↔ ∃ e ∈ g.edges, e.source = n ∧ e.target = next

theorem of_eq_ok {m : MethodId} {c : ControlFlow} :
    ControlFlow.of p m = .ok c ↔ ∃ method, p.method m = .ok method ∧ ofMethod method = c := by
  simp only [ControlFlow.of, bind_eq_ok, pure_eq_ok]

/-- The edges of one method. -/
theorem edgesIn_eq_ok (hp : p.Accepted) (calls : CallGraph StmtId MethodId) {m : MethodId}
    {method : Method} (hm : p.method m = .ok method) :
    ∃ es, ((ofMethod method).nodes.mapM (edgesAt p calls (ofMethod method)) >>= fun es =>
        pure es.flatten) = .ok es ∧ ∀ e, e ∈ es ↔ Joins p calls method e := by
  obtain ⟨es, hes⟩ := exists_mapM fun n (hn : n ∈ (ofMethod method).nodes) =>
    edgesAt_eq_ok hp hm calls hn
  refine ⟨es.flatten, bind_eq_ok.2 ⟨es, hes, rfl⟩, fun e => ?_⟩
  rw [List.mem_flatten]
  constructor
  · rintro ⟨l, hl, he⟩
    obtain ⟨n, hn, hl⟩ := (mem_of_mapM hes).1 hl
    exact mem_edgesAt hp hm hn hl he
  · intro he
    obtain ⟨n, hn, hall⟩ := exists_edgesAt hp hm he
    obtain ⟨l, hl⟩ := edgesAt_eq_ok hp hm calls hn
    exact ⟨l, (mem_of_mapM hes).2 ⟨n, hn, hl⟩, hall l hl⟩

/-- Reachable methods that are declared have a supergraph. -/
theorem exists_ofCalls (hp : p.Accepted)
    (hreach : ∀ m ∈ calls.reachable.toList, ∃ method, p.method m = .ok method) :
    ∃ g, ofCalls p calls = .ok g ∧ Spans p calls g := by
  obtain ⟨graphs, hgraphs⟩ := exists_mapM (f := ControlFlow.of p) fun m hm => by
    obtain ⟨method, hmethod⟩ := hreach m hm
    exact ⟨_, of_eq_ok.2 ⟨method, hmethod, rfl⟩⟩
  have hgraph : ∀ {c}, c ∈ graphs ↔
      ∃ m ∈ calls.reachable.toList, ∃ method, p.method m = .ok method ∧ ofMethod method = c := by
    intro c
    rw [mem_of_mapM hgraphs]
    simp only [of_eq_ok]
  have hedges : ∀ c ∈ graphs, ∃ es, (c.nodes.mapM (edgesAt p calls c) >>= fun es =>
      pure es.flatten) = .ok es := by
    intro c hc
    obtain ⟨m, -, method, hmethod, rfl⟩ := hgraph.1 hc
    obtain ⟨es, hes, -⟩ := edgesIn_eq_ok hp calls hmethod
    exact ⟨es, hes⟩
  obtain ⟨lists, hlists⟩ := exists_mapM hedges
  refine ⟨_, bind_eq_ok.2 ⟨graphs, hgraphs, bind_eq_ok.2 ⟨lists, hlists, rfl⟩⟩, rfl,
    fun {n} => ?_, fun {e} => ?_, fun {n e} => ?_, fun {n next} => ?_⟩
  · rw [List.mem_flatMap]
    constructor
    · rintro ⟨c, hc, hn⟩
      obtain ⟨m, hm, method, hmethod, rfl⟩ := hgraph.1 hc
      exact ⟨m, hm, method, hmethod, hn⟩
    · rintro ⟨m, hm, method, hmethod, hn⟩
      exact ⟨_, hgraph.2 ⟨m, hm, method, hmethod, rfl⟩, hn⟩
  · show e ∈ (Roster.ofList lists.flatten).toList ↔ _
    rw [Roster.mem_ofList, List.mem_flatten]
    constructor
    · rintro ⟨l, hl, he⟩
      obtain ⟨c, hc, hl⟩ := (mem_of_mapM hlists).1 hl
      obtain ⟨m, hm, method, hmethod, rfl⟩ := hgraph.1 hc
      obtain ⟨es, hes, hmem⟩ := edgesIn_eq_ok hp calls hmethod
      rw [hes] at hl
      cases hl
      exact ⟨m, hm, method, hmethod, (hmem e).1 he⟩
    · rintro ⟨m, hm, method, hmethod, he⟩
      obtain ⟨es, hes, hmem⟩ := edgesIn_eq_ok hp calls hmethod
      exact ⟨es, (mem_of_mapM hlists).2 ⟨_, hgraph.2 ⟨m, hm, method, hmethod, rfl⟩, hes⟩,
        (hmem e).2 he⟩
  · show e ∈ (groupBy (·.target) (Roster.ofList lists.flatten).toList).getD n [] ↔ _
    rw [getD_groupBy, List.mem_filter, decide_eq_true_iff]
  · show next ∈ (Roster.ofList
      (((groupBy (·.source) (Roster.ofList lists.flatten).toList).getD n []).map
        (·.target))).toList ↔ _
    rw [Roster.mem_ofList, getD_groupBy, List.mem_map]
    simp only [List.mem_filter, decide_eq_true_iff, and_assoc]

namespace Spans

variable (hp : p.Accepted) (hg : Spans p calls g)
  (hmethods : ∀ {m}, m ∈ calls.reachable.toList → ∃ method, p.method m = .ok method)
include hp hg hmethods

/-- A reachable method is entered and left in the supergraph. -/
theorem entry_exit_mem {m : MethodId} (hm : m ∈ calls.reachable.toList) :
    Node.entry m ∈ g.nodes ∧ Node.exit m ∈ g.nodes := by
  obtain ⟨method, hmethod⟩ := hmethods hm
  have hid := Program.id_of_method hp hmethod
  exact ⟨hg.nodes.2 ⟨m, hm, method, hmethod, mem_nodesOf.2 (Or.inl (by rw [hid]))⟩,
    hg.nodes.2 ⟨m, hm, method, hmethod, mem_nodesOf.2 (Or.inr (Or.inr (by rw [hid])))⟩⟩

/-- Edges lead from nodes to nodes if callees are reachable. -/
theorem ends_mem
    (hcallees : ∀ {site m}, m ∈ calls.callees site → m ∈ calls.reachable.toList)
    {e : SuperEdge} (he : e ∈ g.edges) : e.source ∈ g.nodes ∧ e.target ∈ g.nodes := by
  obtain ⟨m, hm, method, hmethod, hjoin⟩ := hg.edges.1 he
  have hnode : ∀ {n}, n ∈ nodesOf method → n ∈ g.nodes := fun hn =>
    hg.nodes.2 ⟨m, hm, method, hmethod, hn⟩
  have hcallee : ∀ {site callee}, callee ∈ calls.callees site →
      Node.entry callee ∈ g.nodes ∧ Node.exit callee ∈ g.nodes := fun hc =>
    entry_exit_mem hp hg hmethods (hcallees hc)
  cases hjoin with
  | normal hnext _ => exact ⟨hnode (succs_mem hnext).1, hnode (succs_mem hnext).2.1⟩
  | callToReturn _ hnext => exact ⟨hnode (succs_mem hnext).1, hnode (succs_mem hnext).2.1⟩
  | call hn _ hc => exact ⟨hnode hn, (hcallee hc).1⟩
  | ret _ hc hnext => exact ⟨(hcallee hc).2, hnode (succs_mem hnext).2.1⟩

end Spans

end Supergraph

end ObjectFlow
