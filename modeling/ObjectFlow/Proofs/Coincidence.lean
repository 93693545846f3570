import ObjectFlow.Proofs.Lockstep
import ObjectFlow.Proofs.Visits

/-!
# Constant propagation in a program of one method

If the entry method makes no calls and loads nothing from the heap, then no other method runs, and
constant propagation in the program finds what constant propagation in the entry method finds, fact
by fact (`propagateProgram_eq_propagate`). The method may store to the heap, divide and branch.

Without calls the supergraph is the control flow graph of the entry method, with the same order of
nodes and neighbours. Stores change what is known about the heap, but the nodes that they affect are
loads, and there are none. So the two analyses are in step (`mirrors`).
-/

namespace ObjectFlow

open Std

/-! ## Lists in order -/

theorem Roster.toList_insertMany_of_nodup {α : Type} [Keyed α] {as : List α} {r : Roster α}
    (h : (r.toList ++ as).Nodup) : (r.insertMany as).toList = r.toList ++ as := by
  induction as generalizing r with
  | nil => simp [insertMany]
  | cons a as ih =>
    have ha : ¬r.contains a = true := fun hc =>
      (List.nodup_append.1 h).2.2 a (contains_iff.1 hc) a List.mem_cons_self rfl
    have hinsert : (r.insert a).toList = r.toList ++ [a] := by rw [toList_insert, if_neg ha]
    show ((r.insert a).insertMany as).toList = _
    rw [ih (by simpa [hinsert] using h), hinsert, List.append_assoc, List.singleton_append]

theorem Roster.toList_ofList_of_nodup {α : Type} [Keyed α] {as : List α} (h : as.Nodup) :
    (ofList as).toList = as :=
  toList_insertMany_of_nodup (r := ∅) h

/-- Where lists are put together and each member says which list it comes from, the members that
come from one of the lists make up that list. -/
theorem filter_flatMap_of_key {α β : Type} [DecidableEq α] {f : α → List β} {key : β → α}
    {as : List α} {a : α} (hkey : ∀ a, ∀ b ∈ f a, key b = a) (hnodup : as.Nodup) (ha : a ∈ as) :
    (as.flatMap f).filter (key · = a) = f a := by
  have hothers : ∀ c ∈ as, c ≠ a → (f c).filter (key · = a) = [] := by
    intro c _ hne
    refine List.filter_eq_nil_iff.2 fun b hb hba => hne ?_
    rw [← hkey c b hb]
    exact of_decide_eq_true hba
  rw [List.filter_flatMap, flatMap_eq_of_forall_ne hnodup ha hothers]
  exact List.filter_eq_self.2 fun b hb => decide_eq_true (hkey a b hb)

/-! ## The supergraph of one method -/

namespace Supergraph

open ControlFlow

variable {p : Program} {calls : CallGraph StmtId MethodId} {g : Supergraph} {m : MethodId}
  {method : Method} {n k : Node}

/-- The steps out of a node as edges of a supergraph. -/
def normalEdges (c : ControlFlow) (n : Node) : List SuperEdge :=
  (c.succs n).map fun next => ⟨.normal, n, next⟩

theorem mem_normalEdges {c : ControlFlow} {e : SuperEdge} :
    e ∈ normalEdges c n ↔ e.kind = .normal ∧ e.source = n ∧ e.target ∈ c.succs n := by
  obtain ⟨kind, source, target⟩ := e
  simp only [normalEdges, List.mem_map, SuperEdge.mk.injEq]
  constructor
  · rintro ⟨next, hnext, rfl, rfl, rfl⟩
    exact ⟨rfl, rfl, hnext⟩
  · rintro ⟨rfl, rfl, hnext⟩
    exact ⟨target, hnext, rfl, rfl, rfl⟩

theorem nodup_normalEdges (method : Method) :
    ((nodesOf method).flatMap (normalEdges (ofMethod method))).Nodup := by
  refine List.nodup_flatMap.2 ⟨fun n _ => ?_, ?_⟩
  · refine nodup_succs.map fun next next' h => ?_
    cases h
    rfl
  · refine (nodup_nodesOf method).imp fun {n k} hne e hn hk => hne ?_
    rw [← (mem_normalEdges.1 hn).2.1, (mem_normalEdges.1 hk).2.1]

theorem groups_of_ofCalls (hg : ofCalls p calls = .ok g) :
    g.edgesFrom = groupBy (·.source) g.edges ∧ g.edgesTo = groupBy (·.target) g.edges := by
  obtain ⟨graphs, -, h⟩ := bind_eq_ok.1 hg
  obtain ⟨lists, -, h⟩ := bind_eq_ok.1 h
  obtain rfl := pure_eq_ok.1 h
  exact ⟨rfl, rfl⟩

section Single

variable (hp : p.Accepted) (hm : p.method m = .ok method)
  (hno : ∀ site call, site.method = m → p.stmt site ≠ .ok (.invoke call))
  (hreach : calls.reachable.toList = [m]) (hg : ofCalls p calls = .ok g)
include hp hm hno

theorem edgesAt_eq_normalEdges (calls : CallGraph StmtId MethodId) (hn : n ∈ nodesOf method) :
    edgesAt p calls (ofMethod method) n = .ok (normalEdges (ofMethod method) n) := by
  rcases callSite?_cases hp hm hn with ⟨hsite, -⟩ | ⟨site, call, rfl, hst, -⟩
  · exact bind_eq_ok.2 ⟨none, hsite, rfl⟩
  · have hmethod : site.method = m := (method_of_mem_nodesOf hn).trans (Program.id_of_method hp hm)
    exact absurd hst (hno site call hmethod)

include hreach hg

/-- A method without calls that is the only reachable one makes up the supergraph. -/
theorem nodes_edges_of_single : g.nodes = nodesOf method ∧
    g.edges = (nodesOf method).flatMap (normalEdges (ofMethod method)) := by
  obtain ⟨graphs, hgraphs, h⟩ := bind_eq_ok.1 hg
  obtain ⟨lists, hlists, h⟩ := bind_eq_ok.1 h
  have hgraph : graphs = [ofMethod method] := by
    have hof : calls.reachable.toList.mapM (ControlFlow.of p) = .ok [ofMethod method] := by
      rw [hreach]
      exact mapM_eq_ok.2 (.cons (of_eq_ok.2 ⟨method, hm, rfl⟩) .nil)
    exact Except.ok.inj (hgraphs.symm.trans hof)
  have hlist : lists = [(nodesOf method).flatMap (normalEdges (ofMethod method))] := by
    rw [hgraph] at hlists
    obtain ⟨es, rest, hes, hrest, rfl⟩ := List.forall₂_cons_left_iff.1 (mapM_eq_ok.1 hlists)
    obtain rfl := List.forall₂_nil_left_iff.1 hrest
    obtain ⟨parts, hparts, hes⟩ := bind_eq_ok.1 hes
    have hall := mapM_eq_ok_map fun n (hn : n ∈ nodesOf method) =>
      edgesAt_eq_normalEdges hp hm hno calls hn
    rw [← pure_eq_ok.1 hes, Except.ok.inj (hparts.symm.trans hall), List.flatMap]
  obtain rfl := pure_eq_ok.1 h
  refine ⟨?_, ?_⟩
  · show graphs.flatMap (·.nodes) = _
    rw [hgraph, List.flatMap_singleton]
    rfl
  · show (Roster.ofList lists.flatten).toList = _
    rw [hlist, List.flatten_singleton, Roster.toList_ofList_of_nodup (nodup_normalEdges method)]

/-- The nodes follow each other in the order that they have in the method. -/
theorem succs_of_single (hn : n ∈ nodesOf method) : g.succs n = (ofMethod method).succs n := by
  have htargets : (normalEdges (ofMethod method) n).map (·.target) = (ofMethod method).succs n := by
    rw [normalEdges, List.map_map]
    exact List.map_id _
  rw [succs, outEdges, (groups_of_ofCalls hg).1, getD_groupBy,
    (nodes_edges_of_single hp hm hno hreach hg).2,
    filter_flatMap_of_key (fun k e he => (mem_normalEdges.1 he).2.1) (nodup_nodesOf method) hn,
    htargets, Roster.toList_ofList_of_nodup nodup_succs]

theorem mem_inEdges_of_single {e : SuperEdge} : e ∈ g.inEdges n ↔
    e.kind = .normal ∧ e.target = n ∧ n ∈ (ofMethod method).succs e.source := by
  rw [inEdges, (groups_of_ofCalls hg).2, getD_groupBy,
    (nodes_edges_of_single hp hm hno hreach hg).2, List.mem_filter, decide_eq_true_iff,
    List.mem_flatMap]
  constructor
  · rintro ⟨⟨k, -, he⟩, rfl⟩
    obtain ⟨hkind, rfl, hnext⟩ := mem_normalEdges.1 he
    exact ⟨hkind, rfl, hnext⟩
  · rintro ⟨hkind, rfl, hnext⟩
    exact ⟨⟨e.source, (succs_mem hnext).1, mem_normalEdges.2 ⟨hkind, rfl, hnext⟩⟩, rfl⟩

end Single

end Supergraph

/-! ## A method that makes no calls -/

/-- Whether a statement gets along without other methods and without what the heap holds. -/
def Stmt.isLocal : Stmt → Bool
  | invoke _ | loadField .. | loadArray .. => false
  | _ => true

namespace PointsTo

open State

variable {p : Program} {how : Sensitivity} {r : Result}

/-- A fact speaks of no method but the entry, and of no call. -/
def Alone (p : Program) : Fact → Prop
  | .reachable _ m => m = p.entry
  | .call _ => False
  | _ => True

/-- Nothing but the entry method runs if it makes no calls. -/
theorem Derives.alone (hno : ∀ site call, site.method = p.entry → p.stmt site ≠ .ok (.invoke call))
    {f : Fact} (h : Derives p how [] f) : Alone p f := by
  induction h with
  | entry => rfl
  | staticCall _ hst _ _ ihr => exact hno _ _ ihr hst
  | instanceCall _ hst _ _ _ ihr _ => exact hno _ _ ihr hst
  | callee _ ih => exact ih.elim
  | _ => trivial

theorem Result.IsOutcome.reachable_eq (hp : p.Accepted) (hr : r.IsOutcome p)
    (hno : ∀ site call, site.method = p.entry → p.stmt site ≠ .ok (.invoke call)) :
    r.plainCalls.reachable.toList = [p.entry] := by
  have hentry := (hr.coherent hp).entry
  have hnodup := Roster.nodup_toList r.plainCalls.reachable
  have honly : ∀ m ∈ r.plainCalls.reachable.toList, m = p.entry := by
    obtain ⟨how, s, metrics, hs, -, rfl⟩ := hr
    intro m hm
    obtain ⟨c, hc⟩ := Result.mem_reachable.1 hm
    obtain ⟨f, hres, hd⟩ := grounded_of_noExtra hp hs (.reachable (c, m)) hc
    cases hres with
    | reachable => exact hd.alone hno
  cases hlist : r.plainCalls.reachable.toList with
  | nil => simp [hlist] at hentry
  | cons m ms =>
    rw [hlist] at hnodup honly
    obtain rfl := honly m List.mem_cons_self
    have hms : ms = [] := List.eq_nil_iff_forall_not_mem.2 fun m' hm' =>
      (List.nodup_cons.1 hnodup).1 (honly m' (List.mem_cons_of_mem _ hm') ▸ hm')
    rw [hms]

end PointsTo

namespace Constant

open PointsTo Dataflow

variable {p : Program} {r : Result} {a : Aliasing} {g : Supergraph} {s : Stmt} {site : StmtId}
  {fact : ConstFact} {method : Method} {n : Node} {h h' : HeapFact}

/-! ## Stores that nothing sees -/

/-- What may load from a cell is a load. -/
theorem not_isLocal_of_loadsOf (hp : p.Accepted) (hr : r.Coherent p) (ha : a.Exact p r) {c : Cell}
    {loads : List StmtId} (hloads : a.loadsOf p c = .ok loads) (hsite : site ∈ loads) :
    ∃ s, p.stmt site = .ok s ∧ s.isLocal = false := by
  cases c with
  | staticField f =>
    cases hloads
    obtain ⟨-, lhs, hst⟩ := ha.mem_staticLoads.1 hsite
    exact ⟨_, hst, rfl⟩
  | instanceField o f =>
    obtain ⟨uses, huses, hmem⟩ := exists_uses hp hr ha o
    have hload := hmem fun {v u site} hu => Program.mem_loadFields hp hu
    obtain ⟨uses', huses', hloads⟩ := bind_eq_ok.1 hloads
    cases huses.symm.trans huses'
    obtain ⟨v, -, lhs, f', hst⟩ := (hload site).1 (mem_of_filterM hloads hsite)
    exact ⟨_, hst, rfl⟩
  | element o i =>
    obtain ⟨uses, huses, hmem⟩ := exists_uses hp hr ha o
    have hload := hmem fun {v u site} hu => Program.mem_loadArrays hp hu
    obtain ⟨uses', huses', hloads⟩ := bind_eq_ok.1 hloads
    cases huses.symm.trans huses'
    cases hloads
    obtain ⟨v, -, lhs, index, hst⟩ := (hload site).1 hsite
    exact ⟨_, hst, rfl⟩

/-- No node of a method without loads sees a store. -/
theorem exists_refine_of_local (hp : p.Accepted) (hr : r.Coherent p) (ha : a.Exact p r)
    (hreach : ∀ m ∈ r.plainCalls.reachable.toList, m = p.entry)
    (hlocal : ∀ site s, site.method = p.entry → p.stmt site = .ok s → s.isLocal = true)
    (hm : p.method p.entry = .ok method) (hn : n ∈ ControlFlow.nodesOf method) (h : HeapFact)
    (fact : ConstFact) : ∃ h', refine p a h n fact = .ok (h', []) := by
  obtain ⟨g, -, hg⟩ := Supergraph.exists_ofCalls hp fun m => hr.methods
  have hnode : n ∈ g.nodes := hg.nodes.2 ⟨p.entry, hr.entry, method, hm, hn⟩
  obtain ⟨h', affected, hrefine, -⟩ : ∃ h' affected, refine p a h n fact = .ok (h', affected) ∧
      ∀ k ∈ affected, k ∈ g.nodes := exists_refine hp hr ha hg hnode
  refine ⟨h', ?_⟩
  rcases refine_cases hrefine with ⟨cells, value, hstores⟩ | hall
  · have hnone : affected = [] := by
      refine List.eq_nil_iff_forall_not_mem.2 fun k hk => ?_
      obtain ⟨c, -, loads, hloads, site, hsite, rfl⟩ :=
        (hstores.stored hp hr ha hrefine).source k hk
      obtain ⟨s, hst, hload⟩ := not_isLocal_of_loadsOf hp hr ha hloads hsite
      obtain ⟨loads', hloads', hmethods, -⟩ := exists_loadsOf hp hr ha c
      cases hloads.symm.trans hloads'
      have hentry := hreach _ (hmethods site hsite).1
      simp [hlocal site s hentry hst] at hload
    exact hnone ▸ hrefine
  · cases hrefine.symm.trans (hall h)
    exact hall _

/-- Without calls and loads, what flows out of a node does not depend on the heap. -/
theorem transferWithHeap_of_local
    (hlocal : ∀ site s, n = .stmt site → p.stmt site = .ok s → s.isLocal = true) :
    transferWithHeap p a h n fact = transfer p n fact := by
  cases n with
  | entry | exit => rfl
  | stmt site =>
    cases hst : p.stmt site with
    | error e => simp only [transferWithHeap, transfer, hst, bind, Except.bind]
    | ok s =>
      simp only [transferWithHeap, transfer, hst, bind, Except.bind]
      have hs := hlocal site s rfl hst
      cases s with
      | invoke | loadField | loadArray => cases hs
      | alloc | copy | cast | literal | binary | storeField | storeArray | branch | switch | goto
      | ret | nop => rfl

/-! ## In step -/

section Local

variable (hp : p.Accepted) (hr : r.IsOutcome p) (hm : p.method p.entry = .ok method)
  (hlocal : ∀ site s, site.method = p.entry → p.stmt site = .ok s → s.isLocal = true)
include hp hr hm hlocal

/-- The analysis of a program of one method does what the analysis of the method does. -/
theorem mirrors {start : ConstFact} (hstart : boundary p p.entry = .ok start) (ha : a.Exact p r)
    (hg : Supergraph.ofCalls p r.plainCalls = .ok g) :
    Mirrors ⟨.forward, start, ∅, ConstFact.meet, transfer p⟩ (ControlFlow.ofMethod method).graph
      (superAnalysis p a) g p.entry := by
  have hcoherent := hr.coherent hp
  have hid : method.id = p.entry := Program.id_of_method hp hm
  have hno : ∀ site call, site.method = p.entry → p.stmt site ≠ .ok (.invoke call) := by
    intro site call hsite hst
    cases hlocal site _ hsite hst
  have hreach := hr.reachable_eq hp hno
  obtain ⟨g', hg', hspans⟩ := Supergraph.exists_ofCalls hp fun m => hcoherent.methods
  cases hg.symm.trans hg'
  have hedges := fun {n e} => Supergraph.mem_inEdges_of_single (n := n) (e := e) hp hm hno hreach hg
  have hnode : ∀ {n}, n ∈ ControlFlow.nodesOf method → n.method = p.entry := fun hn =>
    (ControlFlow.method_of_mem_nodesOf hn).trans hid
  exact {
    meet := fun _ _ => rfl
    superMeet := fun _ _ => rfl
    initial := rfl
    boundary := hstart
    entry := congrArg Node.entry hid
    entries := hspans.entries.trans hcoherent.entries
    nodes := (Supergraph.nodes_edges_of_single hp hm hno hreach hg).1
    nodup := ControlFlow.nodup_nodesOf method
    head := rfl
    preds_entry := List.eq_nil_iff_forall_not_mem.2 fun k hk =>
      (ControlFlow.succs_mem ((ControlFlow.coherent method).mem_preds.1 hk)).2.2 rfl
    transfer_entry := fun _ => rfl
    sources := fun {n k} => by
      rw [(ControlFlow.coherent method).mem_preds]
      constructor
      · rintro ⟨e, he, rfl⟩
        exact (hedges.1 he).2.2
      · intro hk
        exact ⟨⟨.normal, k, n⟩, hedges.2 ⟨rfl, rfl, hk⟩, rfl⟩
    succs := fun {n} hn => by
      rw [Supergraph.succs_of_single hp hm hno hreach hg hn]
      refine (List.filter_eq_self.2 fun next hnext => decide_eq_true ?_).symm
      exact (ControlFlow.succs_mem hnext).2.2
    along := fun {n e f} he => by
      show along p e f = .ok f
      rw [along, (hedges.1 he).1]
      rfl
    refine := fun {h n f} hn => exists_refine_of_local hp hcoherent ha
      (fun m hm => List.mem_singleton.1 (hreach ▸ hm)) hlocal hm hn h f
    transfer := fun hn => transferWithHeap_of_local fun site s heq =>
      hlocal site s (by rw [← hnode hn, heq]; rfl) }

end Local

/-- **One method.** If the entry method of a program makes no calls and loads nothing from the heap,
constant propagation in the program has facts at the nodes of the entry method and nowhere else, and
they are those of constant propagation in that method. -/
theorem propagateProgram_eq_propagate (hp : p.Accepted) (hr : r.IsOutcome p)
    (hm : p.method p.entry = .ok method) (hlocal : ∀ s ∈ method.decl.body, s.isLocal = true) :
    ∃ whole alone, propagateProgram p r = .ok whole ∧ propagate p p.entry = .ok alone ∧
      whole.inFacts = alone.inFacts ∧ whole.outFacts = alone.outFacts ∧
      ∀ n, (n ∈ whole.inFacts ↔ n ∈ ControlFlow.nodesOf method) ∧
        (n ∈ whole.outFacts ↔ n ∈ ControlFlow.nodesOf method) := by
  have hstmts : ∀ site s, site.method = p.entry → p.stmt site = .ok s → s.isLocal = true := by
    intro site s hsite hst
    obtain ⟨method', hm', hs⟩ := Program.stmt_eq_ok.1 hst
    rw [hsite] at hm'
    cases hm.symm.trans hm'
    exact hlocal s (Array.mem_of_getElem? hs)
  obtain ⟨a, g, first, final, hc, ha, -, -, -, -⟩ := exists_course hp (hr.coherent hp)
  obtain ⟨start, alone, hstart, halone, hsolved⟩ := exists_propagate hp hm
  obtain ⟨start', limit, s, hstart', hrun, hin, hout⟩ := exists_run_of_propagate hm halone
  cases hstart.symm.trans hstart'
  have hmirrors := mirrors hp hr hm hstmts hstart ha hc.graph
  obtain ⟨hinput, houtput⟩ := hmirrors.run_eq (ControlFlow.coherent method) hrun hc.start hc.run
  obtain ⟨hinNodes, houtNodes⟩ := mem_nodes_of_run hrun
  have hfacts : ∀ n ∈ ControlFlow.nodesOf method, ∃ f o, s.input[n]? = some f ∧
      s.output[n]? = some o := fun n hn => hin ▸ hout ▸ hsolved.exists_facts hn
  refine ⟨_, alone, hc.propagateProgram_eq, halone, hinput.trans hin.symm, houtput.trans hout.symm,
    fun n => ⟨?_, ?_⟩⟩
  · show n ∈ final.input ↔ _
    rw [hinput, ExtTreeMap.mem_iff_isSome_getElem?, Option.isSome_iff_exists]
    refine ⟨fun ⟨f, hf⟩ => hinNodes hf, fun hn => ?_⟩
    obtain ⟨f, -, hf, -⟩ := hfacts n hn
    exact ⟨f, hf⟩
  · show n ∈ final.output ↔ _
    rw [houtput, ExtTreeMap.mem_iff_isSome_getElem?, Option.isSome_iff_exists]
    refine ⟨fun ⟨o, ho⟩ => houtNodes ho, fun hn => ?_⟩
    obtain ⟨-, o, -, ho⟩ := hfacts n hn
    exact ⟨o, ho⟩

/-- A loop that stores quotients to a box. -/
def dividing : Model where
  classes := #[{ name := "Main" }, { name := "Box" }]
  fields := #[{ owner := ⟨1⟩, name := "value", ty := .int }]
  methods := #[
    { owner := ⟨0⟩, name := "main", subsignature := "void main(int)", isStatic := true,
      params := [⟨0⟩], returnType := .void,
      body := #[.alloc ⟨1⟩ (.ref ⟨1⟩), .binary ⟨2⟩ .div ⟨0⟩ ⟨3⟩, .storeField ⟨some ⟨1⟩, ⟨0⟩⟩ ⟨2⟩,
        .literal ⟨3⟩ 0, .branch .lt ⟨3⟩ ⟨0⟩ 1, .ret none] }]
  vars := #[⟨⟨0⟩, "number", .int⟩, ⟨⟨0⟩, "box", .ref ⟨1⟩⟩, ⟨⟨0⟩, "quotient", .int⟩,
    ⟨⟨0⟩, "divisor", .int⟩]
  entry := ⟨0⟩

/-- In `dividing`, what flows out of the division gets less when the divisor becomes zero. -/
theorem dividing_propagateProgram_eq :
    (Program.index dividing).Accepted ∧
    ∃ r : Result, r.IsOutcome (.index dividing) ∧
    ∃ method, (Program.index dividing).method ⟨0⟩ = .ok method ∧
      (∀ s ∈ method.decl.body, s.isLocal = true) ∧
    ∃ whole alone, propagateProgram (.index dividing) r = .ok whole ∧
      propagate (.index dividing) ⟨0⟩ = .ok alone ∧
      whole.inFacts = alone.inFacts ∧ whole.outFacts = alone.outFacts ∧
      ∀ n, (n ∈ whole.inFacts ↔ n ∈ ControlFlow.nodesOf method) ∧
        (n ∈ whole.outFacts ↔ n ∈ ControlFlow.nodesOf method) := by
  have hempty : dividing.violations = [] := by decide +kernel
  have hp : (Program.index dividing).Accepted := ⟨dividing, by rw [Program.ofModel, hempty]⟩
  obtain ⟨r, hr, -⟩ := exists_ok_of_any
    (analyze (.index dividing) { sensitivity := .insensitive, discipline := .fifo } 100)
    (fun _ => true) (by decide +kernel)
  obtain ⟨method, hm, hlocal⟩ := exists_ok_of_any ((Program.index dividing).method ⟨0⟩)
    (fun method => method.decl.body.all Stmt.isLocal) (by decide +kernel)
  have hbody : ∀ s ∈ method.decl.body, s.isLocal = true := fun s hs =>
    Array.all_eq_true_iff_forall_mem.1 hlocal s hs
  exact ⟨hp, r, Result.isOutcome_of_analyze hr, method, hm, hbody,
    propagateProgram_eq_propagate hp (Result.isOutcome_of_analyze hr) hm hbody⟩

end Constant

end ObjectFlow
