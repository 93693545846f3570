import Mathlib.Data.DFinsupp.WellFounded
import Mathlib.Data.Fintype.Order
import ObjectFlow.Proofs.Solving

/-!
# Solving without a bound

Visiting nodes comes to an end whenever facts cannot grow for ever, even if there is no common bound
on how often they can grow, and even if a node may put out less when more flows in. Among the visits
that leave all inputs as they are, each lowers the potential that counts outputs out of date and
nodes on the agenda. All other visits make an input grow, and there are finitely many inputs. So
what decreases is the pair of the inputs, upside down, and of that potential (`Settling.descends`).

`exists_postSolution` says what the facts satisfy in the end, for both directions.
-/

namespace ObjectFlow

open Std

/-- A bounded loop comes to its end under an invariant if the bound is large enough, provided that
it is done or one more round keeps the invariant and goes down a well-founded relation. -/
theorem exists_run_of_wellFounded {S β : Type} {run : Nat → S → Except Fault S} {P Done : S → Prop}
    {below : β → β → Prop} (hwf : WellFounded below) (rank : S → β)
    (hdone : ∀ {s} limit, Done s → run limit s = .ok s)
    (hround : ∀ {s}, P s → Done s ∨ ∃ s', (∀ limit, run (limit + 1) s = run limit s') ∧ P s' ∧
      below (rank s') (rank s))
    {s : S} (hs : P s) :
    ∃ limit s', (∀ more, limit ≤ more → run more s = .ok s') ∧ P s' ∧ Done s' := by
  induction hb : rank s using hwf.induction generalizing s with
  | _ b ih =>
    rcases hround hs with hend | ⟨s', hrun, hs', hbelow⟩
    · exact ⟨0, s, fun more _ => hdone more hend, hs, hend⟩
    · obtain ⟨limit, final, hfinal, hend⟩ := ih (rank s') (hb ▸ hbelow) hs' rfl
      refine ⟨limit + 1, final, fun more hmore => ?_, hend⟩
      obtain ⟨rest, rfl⟩ := Nat.exists_eq_add_of_le' (Nat.le_of_add_left_le hmore)
      rw [hrun]
      exact hfinal rest (by omega)

/-- A graph in which edges join nodes and may be followed both ways. -/
structure FlowGraph.Linked {ν : Type} (g : FlowGraph ν) : Prop where
  entry_mem : g.entry ∈ g.nodes
  exit_mem : g.exit ∈ g.nodes
  preds_mem : ∀ {m n}, n ∈ g.nodes → m ∈ g.preds n → m ∈ g.nodes
  succs_mem : ∀ {m n}, m ∈ g.nodes → n ∈ g.succs m → n ∈ g.nodes
  mem_preds : ∀ {m n}, m ∈ g.preds n ↔ n ∈ g.succs m

namespace FlowGraph

variable {ν : Type} [DecidableEq ν] {nodes : List ν} {entry exit : ν} {edges : List (ν × ν)}

def ofEdges (nodes : List ν) (entry exit : ν) (edges : List (ν × ν)) : FlowGraph ν where
  nodes
  entry
  exit
  preds n := (edges.filter (·.2 = n)).map (·.1)
  succs n := (edges.filter (·.1 = n)).map (·.2)

theorem mem_preds_ofEdges {m n : ν} :
    m ∈ (ofEdges nodes entry exit edges).preds n ↔ (m, n) ∈ edges := by
  simp [ofEdges]

theorem mem_succs_ofEdges {m n : ν} :
    n ∈ (ofEdges nodes entry exit edges).succs m ↔ (m, n) ∈ edges := by
  simp [ofEdges]

theorem linked_ofEdges (hentry : entry ∈ nodes) (hexit : exit ∈ nodes)
    (hedges : ∀ e ∈ edges, e.1 ∈ nodes ∧ e.2 ∈ nodes) :
    (ofEdges nodes entry exit edges).Linked :=
  ⟨hentry, hexit, fun _ hm => (hedges _ (mem_preds_ofEdges.1 hm)).1,
    fun _ hn => (hedges _ (mem_succs_ofEdges.1 hn)).2,
    mem_preds_ofEdges.trans mem_succs_ofEdges.symm⟩

end FlowGraph

namespace FlowGraph.Linked

variable {ν φ : Type} {g : FlowGraph ν}

theorem coherent (hg : g.Linked) : g.Coherent :=
  ⟨hg.entry_mem, hg.succs_mem, hg.mem_preds⟩

theorem reverse (hg : g.Linked) : g.reverse.Linked :=
  ⟨hg.exit_mem, hg.entry_mem, hg.succs_mem, hg.preds_mem, hg.mem_preds.symm⟩

theorem along (hg : g.Linked) (a : Analysis ν φ) : (a.along g).Linked := by
  unfold Analysis.along
  cases a.direction with
  | forward => exact hg
  | backward => exact hg.reverse

end FlowGraph.Linked

@[simp] theorem Analysis.nodes_along {ν φ : Type} (a : Analysis ν φ) (g : FlowGraph ν) :
    (a.along g).nodes = g.nodes := by
  unfold along
  cases a.direction <;> rfl

namespace Dataflow

variable {ν φ : Type} [Keyed ν] [DecidableEq ν] [SemilatticeSup φ] [DecidableEq φ]
  {a : Analysis ν φ} {g : FlowGraph ν} {Fits : φ → Prop} {s s' : Progress ν φ} {n : ν}
  {rest : Agenda ν}

/-- What flows into the nodes, upside down, and how many visits can follow before one of these
facts grows. -/
noncomputable def rank (a : Analysis ν φ) (g : FlowGraph ν) (s : Progress ν φ) :
    ({n // n ∈ g.nodes} → φᵒᵈ) × Nat :=
  (fun n => OrderDual.toDual (s.input.getD n a.boundary), potential a g (fun _ => 0) 0 s)

/-- A visit makes an input grow, or leaves all inputs as they are and lowers the potential. -/
theorem Settling.descends (law : a.Closed g Fits) (hs : Settling a g Fits s)
    (hpop : s.agenda.pop? = some (n, rest))
    (hvisit : Dataflow.visit a g n { s with agenda := rest } = .ok s') :
    Prod.Lex (· < ·) (· < ·) (rank a g s') (rank a g s) := by
  obtain ⟨hn, -⟩ := hs.queued (Agenda.pop?_eq_some hpop ▸ List.mem_cons_self)
  obtain @⟨before, old, new, hb, ho, hnew⟩ := visit_eq_ok.1 hvisit
  obtain ⟨hle, -, -⟩ := gather_spec law n (hs.fitsIn hb) hs.fitsOut
  have hself : s.input.getD n a.boundary = before := by
    rw [ExtTreeMap.getD_eq_getD_getElem?, hb]
    rfl
  have hinsert : ∀ m, (s.input.insert n (gather a g s.output n before)).getD m a.boundary =
      if n = m then gather a g s.output n before else s.input.getD m a.boundary := by
    intro m
    rw [ExtTreeMap.getD_insert]
    simp only [LawfulEqOrd.compare_eq_iff_eq]
  rcases eq_or_lt_of_le hle with heq | hlt
  · have hslack := slack_of_gather_eq (s := s) (fun _ => 0) 0 hb ho heq.symm hnew
    rw [Prod.lex_def]
    refine Or.inr ⟨funext fun m => congrArg OrderDual.toDual ((hinsert m).trans ?_),
      potential_visit hn hpop hnew hslack rfl rfl rfl⟩
    split
    · next hm => rw [← heq, ← hm, hself]
    · rfl
  · refine Prod.Lex.left _ _ (Pi.lt_def.2 ⟨fun m => ?_, ⟨n, hn⟩, ?_⟩)
    · refine OrderDual.toDual_le_toDual.2 ?_
      rw [hinsert]
      split
      · next hm => rwa [← hm, hself]
      · exact le_rfl
    · refine OrderDual.toDual_lt_toDual.2 ?_
      rw [hinsert, if_pos rfl, hself]
      exact hlt

/-- Visits come to an end, and any larger number of visits ends in the same way. -/
theorem exists_run [WellFoundedGT φ] (hg : g.Coherent) (law : a.Closed g Fits) :
    ∃ limit s, (∀ more, limit ≤ more → run a g more (start a g) = .ok s) ∧
      Settling a g Fits s ∧ s.agenda.toList = [] := by
  have : Finite {n // n ∈ g.nodes} := g.nodes.finite_toSet
  have hwf : WellFounded (Prod.Lex (· < ·) (· < ·) :
      ({n // n ∈ g.nodes} → φᵒᵈ) × Nat → ({n // n ∈ g.nodes} → φᵒᵈ) × Nat → Prop) :=
    WellFounded.prod_lex wellFounded_lt wellFounded_lt
  refine exists_run_of_wellFounded hwf (rank a g) run_of_done (fun {s} hs => ?_)
    (settling_start hg law)
  cases hpop : s.agenda.pop? with
  | none => exact Or.inl (Agenda.pop?_eq_none.1 hpop)
  | some next =>
    obtain ⟨s', hvisit⟩ := hs.exists_visit law hpop
    exact Or.inr ⟨s', run_succ hpop hvisit, hs.visit hg law hpop hvisit,
      hs.descends law hpop hvisit⟩

omit [Keyed ν] [DecidableEq ν] [DecidableEq φ] in
theorem closed_of_transfer (hmeet : ∀ f f', a.meet f f' = f ⊔ f')
    (htransfer : ∀ n ∈ g.nodes, ∀ f, ∃ f', a.transfer n f = .ok f') :
    a.Closed g fun _ => True where
  meet := hmeet
  boundary := trivial
  initial := trivial
  sup _ _ := trivial
  transfer {n f} hn _ := by
    obtain ⟨f', hf'⟩ := htransfer n hn f
    exact ⟨f', hf', trivial⟩

/-- **Post-solutions.** Solving comes to an end for every analysis in which facts are joined and
cannot grow for ever. The node where facts start to flow keeps its fact on both sides. What flows
out of any other node is computed from what flows in, which is above what flows out of each
predecessor along the flow. -/
theorem exists_postSolution [WellFoundedGT φ] (hg : g.Linked)
    (hmeet : ∀ f f', a.meet f f' = f ⊔ f')
    (htransfer : ∀ n ∈ g.nodes, ∀ f, ∃ f', a.transfer n f = .ok f') :
    ∃ limit r, (∀ more, limit ≤ more → solve a g more = .ok r) ∧
      Solved a (a.along g) (r.entering a.direction) (r.leaving a.direction) := by
  have law : a.Closed (a.along g) fun _ => True :=
    closed_of_transfer hmeet ((a.nodes_along g).symm ▸ htransfer)
  obtain ⟨limit, s, hrun, hs, hdone⟩ := exists_run (hg.along a).coherent law
  refine ⟨limit, s.solution a.direction, fun more hmore => solve_of_run (hrun more hmore), ?_⟩
  rw [entering_solution, leaving_solution]
  exact hs.solved hdone

/-- A graph with a cycle, a node that follows itself and a node that nothing leads to. -/
def winding : FlowGraph Vertex :=
  .ofEdges (Id.range .vertices 5) ⟨0⟩ ⟨3⟩
    [(⟨0⟩, ⟨1⟩), (⟨1⟩, ⟨1⟩), (⟨1⟩, ⟨2⟩), (⟨2⟩, ⟨1⟩), (⟨2⟩, ⟨3⟩), (⟨4⟩, ⟨3⟩)]

/-- A backward analysis in which every node puts out less when more flows in. -/
def turning : Analysis Vertex (Fin 3) where
  direction := .backward
  boundary := 1
  initial := 0
  meet := max
  transfer _ f := .ok f.rev

theorem winding_postSolution : ¬Monotone (Fin.rev : Fin 3 → Fin 3) ∧
    ∃ limit r, (∀ more, limit ≤ more → solve turning winding more = .ok r) ∧
      Solved turning winding.reverse r.outFacts r.inFacts :=
  ⟨fun h => absurd (h (show (0 : Fin 3) ≤ 1 by decide)) (by decide),
    exists_postSolution (FlowGraph.linked_ofEdges (by decide) (by decide) (by decide))
      (fun _ _ => rfl) fun _ _ f => ⟨f.rev, rfl⟩⟩

end Dataflow

end ObjectFlow
