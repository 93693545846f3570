import ObjectFlow.Proofs.Computation
import ObjectFlow.Proofs.ProgramFacts

/-!
# The visits of constant propagation in a program

Once a points-to analysis has ended, constants are propagated by visits that come to an end
(`visits_end`). Whatever a visit queues is a node of the supergraph: a successor, or a load that may
see what the visit has stored. The argument does not need more to flow out of a node when more flows
in. Inputs and cells of the heap grow, and there are only so many of them.

When the visits are over, nothing is out of date (`nothing_stale`). In particular no load has been
missed: what flows out of every node is what the node computes with the heap as it is in the end.
-/

namespace ObjectFlow

open Std

namespace Constant

open PointsTo Dataflow Dataflow.Super

variable {p : Program} {r : Result} {a : Aliasing} {g : Supergraph}
  {first s : SuperProgress HeapFact ConstFact}

/-! ## The visits come to an end -/

/-- A call edge leads from a call to the entry of a method. -/
theorem exists_of_callEdge (hr : r.Coherent p) (hg : Supergraph.Spans p r.plainCalls g)
    {e : SuperEdge} (he : e ∈ g.edges) (hkind : e.kind = .call) :
    ∃ site call callee method, e = ⟨.call, .stmt site, .entry callee⟩ ∧
      p.stmt site = .ok (.invoke call) ∧ p.method callee = .ok method := by
  obtain ⟨m, -, method, -, hjoin⟩ := hg.edges.1 he
  cases hjoin with
  | @call site call callee _ hst hcallee =>
    obtain ⟨callee', hm⟩ := hr.methods (hr.callees hcallee)
    exact ⟨site, call, callee, callee', rfl, hst, hm⟩
  | normal | callToReturn | ret => cases hkind

/-- What happens when a node is visited: the visit succeeds, and the loads that see what it has
stored and the nodes that follow are nodes of the supergraph. -/
structure Proceeds (p : Program) (a : Aliasing) (g : Supergraph) (n : Node)
    (s : SuperProgress HeapFact ConstFact) : Prop where
  node : n ∈ g.nodes
  visit : ∃ s' fact loads, Super.visit (superAnalysis p a) g n s = .ok s' ∧
    s'.input[n]? = some fact ∧ refine p a s.shared n fact = .ok (s'.shared, loads) ∧
    ∀ load ∈ loads, load ∈ g.nodes
  succs : ∀ next ∈ g.succs n, next ∈ g.nodes

theorem proceeds_of_settling (hp : p.Accepted) (hr : r.Coherent p) (ha : a.Exact p r)
    (hg : Supergraph.Spans p r.plainCalls g) (hs : Settling p r a g s) {n : Node}
    {rest : Agenda Node} (hpop : s.agenda.pop? = some (n, rest)) :
    Proceeds p a g n { s with agenda := rest } := by
  have hcoherent := hg.coherent hp hr
  have hn : n ∈ g.nodes := hs.queued (Agenda.pop?_eq_some hpop ▸ List.mem_cons_self)
  obtain ⟨s', hvisit⟩ := hs.exists_visit hcoherent (superLawful hp hr ha hg) hpop
  obtain @⟨_, _, fact, _, loads, _, _, _, hrefine, _, hin, _, _⟩ := visited_of_visit hvisit
  obtain ⟨heap, loads', hrefine', hloads⟩ : ∃ heap loads,
      refine p a s.shared n fact = .ok (heap, loads) ∧ ∀ load ∈ loads, load ∈ g.nodes :=
    exists_refine hp hr ha hg hn
  cases hrefine.symm.trans hrefine'
  refine ⟨hn, ⟨s', fact, loads, hvisit, ?_, hrefine, hloads⟩, fun next hnext => ?_⟩
  · rw [hin, ExtTreeMap.getElem?_insert_self]
  · obtain ⟨e, he, -, rfl⟩ := hcoherent.mem_succs.1 hnext
    exact hcoherent.target_mem he

/-- The visits of constant propagation come to an end. Call edges lead from calls to methods. From
the first state on there are at most as many visits as the bound says, only nodes of the supergraph
wait for a visit, and each visit can be made. In the last state nothing waits. -/
structure Ends (p : Program) (r : Result) (a : Aliasing) (g : Supergraph)
    (first final : SuperProgress HeapFact ConstFact) : Prop where
  calls : ∀ e ∈ g.edges, e.kind = .call → ∃ site call callee method,
    e = ⟨.call, .stmt site, .entry callee⟩ ∧ p.stmt site = .ok (.invoke call) ∧
      p.method callee = .ok method
  count : ∀ {k s}, Visits (superAnalysis p a) g first k s → k ≤ visitBound p r g
  queued : ∀ {k s}, Visits (superAnalysis p a) g first k s → ∀ n ∈ s.agenda.toList, n ∈ g.nodes
  proceeds : ∀ {k s}, Visits (superAnalysis p a) g first k s → ∀ n rest,
    s.agenda.pop? = some (n, rest) → Proceeds p a g n { s with agenda := rest }
  last : ∃ k, Visits (superAnalysis p a) g first k final
  done : final.agenda.toList = []

/-- **The visits come to an end.** Constant propagation in a program succeeds after any points-to
analysis that has ended. -/
theorem visits_end (hp : p.Accepted) (hr : r.IsOutcome p) :
    ∃ a g first final, Course p r a g first final ∧ Ends p r a g first final ∧
      propagateProgram p r = .ok ⟨final.input, final.output, final.visited.reverse⟩ := by
  have hcoherent := hr.coherent hp
  obtain ⟨a, g, first, final, hc, ha, hg, hfirst, -, hdone⟩ := exists_course hp hcoherent
  have hsettling : ∀ {k s}, Visits (superAnalysis p a) g first k s →
      Settling p r a g s ∧ k ≤ visitBound p r g := fun {k s} hs => by
    obtain ⟨hsettling, hle⟩ :=
      hs.settling (hg.coherent hp hcoherent) (superLawful hp hcoherent ha hg) hfirst
    refine ⟨hsettling, ?_⟩
    calc k ≤ _ := Nat.le_of_add_left_le hle
      _ ≤ _ := hfirst.potential_le
      _ ≤ visitBound p r g := le_visitBound
  refine ⟨a, g, first, final, hc, ?_, hc.propagateProgram_eq⟩
  exact {
    calls := fun e => exists_of_callEdge hcoherent hg
    count := fun hs => (hsettling hs).2
    queued := fun hs n => (hsettling hs).1.queued
    proceeds := fun hs n rest hpop => proceeds_of_settling hp hcoherent ha hg (hsettling hs).1 hpop
    last := Visits.start.run hc.run
    done := hdone }

/-- An analysis of `keeping` comes to its end. -/
theorem exists_isOutcome_keeping : ∃ r : Result, r.IsOutcome (.index Computation.keeping) := by
  obtain ⟨r, hr, -⟩ := exists_ok_of_any
    (analyze (.index Computation.keeping) { sensitivity := .object 1, discipline := .lifo } 100)
    (fun _ => true) (by decide +kernel)
  exact ⟨r, Result.isOutcome_of_analyze hr⟩

/-- In `keeping`, a number is passed to a method and stored to an object of the caller. -/
theorem keeping_visits_end :
    (Program.index Computation.keeping).Accepted ∧
    ∃ r : Result, r.IsOutcome (.index Computation.keeping) ∧
    ∃ a g first final, Course (.index Computation.keeping) r a g first final ∧
      Ends (.index Computation.keeping) r a g first final ∧
      propagateProgram (.index Computation.keeping) r =
        .ok ⟨final.input, final.output, final.visited.reverse⟩ := by
  obtain ⟨r, hr⟩ := exists_isOutcome_keeping
  exact ⟨Computation.keeping_accepted, r, hr, visits_end Computation.keeping_accepted hr⟩

/-! ## Nothing is out of date -/

/-- What flows into each node is above what flows along its edges, the heap is above what each node
stores, and what flows out of each node is what it computes with this very heap. -/
structure UpToDate (p : Program) (r : Result) (a : Aliasing) (g : Supergraph)
    (s : SuperProgress HeapFact ConstFact) : Prop where
  edges : ∀ n ∈ g.nodes, ∀ e ∈ g.inEdges n, ∃ before after along,
    s.output[e.source]? = some before ∧ s.input[n]? = some after ∧
      Constant.along p e before = .ok along ∧ along ≤ after
  staticField : ∀ {site f rhs fact}, Node.stmt site ∈ g.nodes →
    p.stmt site = .ok (.storeField ⟨none, f⟩ rhs) → p.holdsInt rhs = .ok true →
    s.input[Node.stmt site]? = some fact → fact.get rhs ≤ s.shared.get (.staticField f)
  instanceField : ∀ {site base f rhs fact o}, Node.stmt site ∈ g.nodes →
    p.stmt site = .ok (.storeField ⟨some base, f⟩ rhs) → p.holdsInt rhs = .ok true →
    s.input[Node.stmt site]? = some fact → o ∈ r.pointsTo base →
    fact.get rhs ≤ s.shared.get (.instanceField o f)
  element : ∀ {site base index rhs fact o}, Node.stmt site ∈ g.nodes →
    p.stmt site = .ok (.storeArray base index rhs) → p.holdsInt rhs = .ok true →
    s.input[Node.stmt site]? = some fact → fact.get index ≠ .unset → o ∈ r.pointsTo base →
    fact.get rhs ≤ s.shared.get (.element o (fact.get index))
  outputs : ∀ n ∈ g.nodes, ∃ fact out, s.input[n]? = some fact ∧ s.output[n]? = some out ∧
    transferWithHeap p a s.shared n fact = .ok out

/-- The cells to which a node stores have taken in what it stores. -/
theorem le_of_solved (hp : p.Accepted) (hr : r.Coherent p) (ha : a.Exact p r)
    (hs : SuperSolved (superAnalysis p a) g s.shared s.input s.output) {site : StmtId} {st : Stmt}
    {rhs : VarId} {cells : List Cell} {fact : ConstFact} (hn : Node.stmt site ∈ g.nodes)
    (hst : p.stmt site = .ok st) (hstore : a.store? fact st = some (rhs, cells))
    (hint : p.holdsInt rhs = .ok true) (hfact : s.input[Node.stmt site]? = some fact) {c : Cell}
    (hc : c ∈ cells) : fact.get rhs ≤ s.shared.get c := by
  obtain ⟨fact', -, hfact', -, hrefine, -⟩ := hs.node hn
  cases hfact.symm.trans hfact'
  exact (Stores.stored hp hr ha (.mk hst hstore hint) hrefine).takes c hc

theorem upToDate_of_solved (hp : p.Accepted) (hr : r.Coherent p) (ha : a.Exact p r)
    (hg : g.Coherent) (hs : SuperSolved (superAnalysis p a) g s.shared s.input s.output) :
    UpToDate p r a g s where
  edges n hn e he := by
    obtain ⟨hedge, rfl⟩ := hg.mem_inEdges.1 he
    obtain ⟨-, before, -, hbefore, -⟩ := hs.node (hg.source_mem hedge)
    obtain ⟨after, -, hafter, -⟩ := hs.node hn
    obtain ⟨along, halong, hle⟩ := hs.edge hedge hbefore hafter
    exact ⟨before, after, along, hbefore, hafter, halong, hle⟩
  staticField hn hst hint hfact :=
    le_of_solved hp hr ha hs hn hst rfl hint hfact List.mem_cons_self
  instanceField hn hst hint hfact ho :=
    le_of_solved hp hr ha hs hn hst rfl hint hfact
      (List.mem_map_of_mem (ExtTreeSet.mem_toList.2 (ha.mem_pointsTo.2 ho)))
  element {_ _ index _ fact _} hn hst hint hfact hset ho := by
    refine le_of_solved hp hr ha hs hn hst rfl hint hfact ?_
    rw [if_neg hset]
    exact List.mem_map_of_mem (ExtTreeSet.mem_toList.2 (ha.mem_pointsTo.2 ho))
  outputs n hn := by
    obtain ⟨fact, out, hfact, hout, -, htransfer⟩ := hs.node hn
    exact ⟨fact, out, hfact, hout, htransfer⟩

/-- **No load is stale.** Constant propagation after a points-to analysis that has ended stops in a
state in which nothing waits for a visit and everything is up to date with the heap of that state.
-/
theorem nothing_stale (hp : p.Accepted) (hr : r.IsOutcome p) :
    ∃ a g first final, Course p r a g first final ∧
      propagateProgram p r = .ok ⟨final.input, final.output, final.visited.reverse⟩ ∧
      final.agenda.toList = [] ∧ UpToDate p r a g final := by
  have hcoherent := hr.coherent hp
  obtain ⟨a, g, first, final, hc, ha, hg, -, hfinal, hdone⟩ := exists_course hp hcoherent
  have hgraph := hg.coherent hp hcoherent
  exact ⟨a, g, first, final, hc, hc.propagateProgram_eq, hdone,
    upToDate_of_solved hp hcoherent ha hgraph (hfinal.solved hgraph hdone)⟩

/-- In `keeping`, the load in `main` sees what `keep` stores. -/
theorem keeping_nothing_stale :
    (Program.index Computation.keeping).Accepted ∧
    ∃ r : Result, r.IsOutcome (.index Computation.keeping) ∧
    ∃ a g first final, Course (.index Computation.keeping) r a g first final ∧
      propagateProgram (.index Computation.keeping) r =
        .ok ⟨final.input, final.output, final.visited.reverse⟩ ∧
      final.agenda.toList = [] ∧ UpToDate (.index Computation.keeping) r a g final := by
  obtain ⟨r, hr⟩ := exists_isOutcome_keeping
  exact ⟨Computation.keeping_accepted, r, hr, nothing_stale Computation.keeping_accepted hr⟩

end Constant

end ObjectFlow
