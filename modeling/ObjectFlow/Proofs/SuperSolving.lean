import Mathlib.Data.List.Perm.Subperm
import ObjectFlow.Dataflow.SuperAnalysis
import ObjectFlow.Proofs.Graphs

/-!
# Solving the analysis of a whole program

Nodes of a supergraph are visited as those of a control flow graph are, but a visit may also refine
the state that all nodes share, and then the nodes that depend on what has changed are visited
again. Where the visits end, nothing is out of date: the shared state has taken in every node, what
flows out of a node is computed with that very state, and what flows in is above what arrives along
each edge (`SuperSolved`).

The visits come to an end because inputs and the shared state only grow. How far the shared state
can grow depends on the inputs, so a relation between the two is carried along (`Fair` below).
-/

namespace ObjectFlow

open Std

/-- Edges lead from nodes to nodes, and are found from both ends. -/
structure Supergraph.Coherent (g : Supergraph) : Prop where
  entry_mem : ∀ {m}, m ∈ g.entries → Node.entry m ∈ g.nodes
  source_mem : ∀ {e}, e ∈ g.edges → e.source ∈ g.nodes
  target_mem : ∀ {e}, e ∈ g.edges → e.target ∈ g.nodes
  mem_inEdges : ∀ {n e}, e ∈ g.inEdges n ↔ e ∈ g.edges ∧ e.target = n
  mem_succs : ∀ {n next}, next ∈ g.succs n ↔ ∃ e ∈ g.edges, e.source = n ∧ e.target = next

section

variable {σ φ : Type} [SemilatticeSup φ]

/-- What solving the analysis of a program relies on. Facts that fit are met, moved along edges and
transferred without failure, and grow at most `bound` times. Refining the shared state for one node
does not undo what has been done for another, says which nodes see a difference, and adds to the
weight of the state, which stays below `total` as long as the state is fair to the inputs. -/
structure SuperAnalysis.Lawful (a : SuperAnalysis σ φ) (g : Supergraph) (Fits : φ → Prop)
    (height : φ → Nat) (bound : Nat) (Fair : σ → ExtTreeMap Node φ → Prop) (weight : σ → Nat)
    (total : Nat) : Prop where
  meet : ∀ f f', a.meet f f' = f ⊔ f'
  initial : Fits a.initial
  boundary : ∀ {m}, m ∈ g.entries → ∃ f, a.boundary m = .ok f ∧ Fits f
  sup : ∀ {f f'}, Fits f → Fits f' → Fits (f ⊔ f')
  along : ∀ {e f}, e ∈ g.edges → Fits f → ∃ f', a.along e f = .ok f' ∧ Fits f'
  refine : ∀ {h n f}, n ∈ g.nodes → Fits f →
    ∃ h' affected, a.refine h n f = .ok (h', affected) ∧ ∀ m ∈ affected, m ∈ g.nodes
  transfer : ∀ {h n f}, n ∈ g.nodes → Fits f → ∃ f', a.transfer h n f = .ok f' ∧ Fits f'
  height_lt : ∀ {f f'}, Fits f → Fits f' → f < f' → height f < height f'
  height_le : ∀ {f}, Fits f → height f ≤ bound
  refine_same : ∀ {h h' n f affected}, a.refine h n f = .ok (h', affected) →
    a.refine h' n f = .ok (h', [])
  refine_other : ∀ {h h' n m f f' affected}, a.refine h n f = .ok (h', affected) →
    a.refine h m f' = .ok (h, []) → a.refine h' m f' = .ok (h', [])
  unaffected : ∀ {h h' n m f f' affected}, a.refine h n f = .ok (h', affected) → m ∈ g.nodes →
    m ∉ affected → a.transfer h' m f' = a.transfer h m f'
  weight_lt : ∀ {h h' n f affected}, a.refine h n f = .ok (h', affected) →
    h' = h ∧ affected = [] ∨ weight h < weight h'
  weight_le : ∀ {h input}, Fair h input → weight h ≤ total
  fair : ∀ {h h' n before f affected} {input : ExtTreeMap Node φ}, Fair h input → n ∈ g.nodes →
    input[n]? = some before → before ≤ f → Fits f → a.refine h n f = .ok (h', affected) →
    Fair h' (input.insert n f)

namespace Dataflow

variable {a : SuperAnalysis σ φ} {g : Supergraph} {shared : σ}

/-- The facts and the shared state solve the analysis of a program. -/
structure SuperSolved (a : SuperAnalysis σ φ) (g : Supergraph) (shared : σ)
    (input output : ExtTreeMap Node φ) : Prop where
  boundary : ∀ {m b f}, m ∈ g.entries → a.boundary m = .ok b →
    input[Node.entry m]? = some f → b ≤ f
  node : ∀ {n}, n ∈ g.nodes → ∃ f o, input[n]? = some f ∧ output[n]? = some o ∧
    a.refine shared n f = .ok (shared, []) ∧ a.transfer shared n f = .ok o
  edge : ∀ {e f o}, e ∈ g.edges → output[e.source]? = some o → input[e.target]? = some f →
    ∃ f', a.along e o = .ok f' ∧ f' ≤ f

namespace Super

variable {Fits : φ → Prop} {height : φ → Nat} {bound : Nat}
  {Fair : σ → ExtTreeMap Node φ → Prop} {weight : σ → Nat} {total : Nat}
  {s s' : SuperProgress σ φ} {n : Node} {rest : Agenda Node}

/-! ## Gathering -/

/-- What is gathered is above the start and above what arrives along each edge, and fits. -/
theorem exists_gather (hg : g.Coherent)
    (law : a.Lawful g Fits height bound Fair weight total) {output : ExtTreeMap Node φ} (n : Node)
    {start : φ} (hstart : Fits start) (hout : ∀ {m : Node} {o : φ}, output[m]? = some o → Fits o) :
    ∃ f, gather a g output n start = .ok f ∧ start ≤ f ∧ Fits f ∧
      ∀ e ∈ g.inEdges n, ∀ o, output[e.source]? = some o →
        ∃ f', a.along e o = .ok f' ∧ f' ≤ f := by
  have hedges : ∀ e ∈ g.inEdges n, e ∈ g.edges := fun e he => (hg.mem_inEdges.1 he).1
  unfold gather
  generalize g.inEdges n = edges at hedges ⊢
  induction edges generalizing start with
  | nil => exact ⟨start, rfl, le_rfl, hstart, by simp⟩
  | cons e edges ih =>
    have ih := fun {start} (h : Fits start) => ih h fun e he => hedges e (List.mem_cons_of_mem _ he)
    rw [List.foldlM_cons]
    cases ho : output[e.source]? with
    | none =>
      obtain ⟨f, hf, hle, hfits, hdone⟩ := ih hstart
      refine ⟨f, hf, hle, hfits, fun e' he' o ho' => ?_⟩
      rcases List.mem_cons.1 he' with rfl | he'
      · cases ho.symm.trans ho'
      · exact hdone e' he' o ho'
    | some o =>
      obtain ⟨f', hf', hfits'⟩ := law.along (hedges e List.mem_cons_self) (hout ho)
      obtain ⟨f, hf, hle, hfits, hdone⟩ := ih (law.sup hfits' hstart)
      refine ⟨f, bind_eq_ok.2 ⟨f' ⊔ start, bind_eq_ok.2 ⟨f', hf', by rw [law.meet]; rfl⟩, hf⟩,
        le_sup_right.trans hle, hfits, fun e' he' o' ho' => ?_⟩
      rcases List.mem_cons.1 he' with rfl | he'
      · cases ho.symm.trans ho'
        exact ⟨f', hf', le_sup_left.trans hle⟩
      · exact hdone e' he' o' ho'

/-! ## Settled nodes -/

/-- The shared state has taken in a node, the node puts out what it computes from its input and that
state, and the input is above what arrives along each edge. -/
structure SettledAt (a : SuperAnalysis σ φ) (g : Supergraph) (s : SuperProgress σ φ) (n : Node) :
    Prop where
  refine : ∀ {f}, s.input[n]? = some f → a.refine s.shared n f = .ok (s.shared, [])
  transfer : ∀ {f o}, s.input[n]? = some f → s.output[n]? = some o →
    a.transfer s.shared n f = .ok o
  edges : ∀ {e f o}, e ∈ g.edges → e.target = n → s.output[e.source]? = some o →
    s.input[n]? = some f → ∃ f', a.along e o = .ok f' ∧ f' ≤ f

/-- What holds between visits. -/
structure Settling (a : SuperAnalysis σ φ) (g : Supergraph) (Fits : φ → Prop)
    (Fair : σ → ExtTreeMap Node φ → Prop) (s : SuperProgress σ φ) : Prop where
  found : ∀ {n}, n ∈ g.nodes → (∃ f, s.input[n]? = some f) ∧ ∃ o, s.output[n]? = some o
  fitsIn : ∀ {n : Node} {f : φ}, s.input[n]? = some f → Fits f
  fitsOut : ∀ {n : Node} {o : φ}, s.output[n]? = some o → Fits o
  queued : ∀ {n}, n ∈ s.agenda.toList → n ∈ g.nodes
  boundary : ∀ {m b f}, m ∈ g.entries → a.boundary m = .ok b →
    s.input[Node.entry m]? = some f → b ≤ f
  fair : Fair s.shared s.input
  settled : ∀ {n}, n ∈ g.nodes → n ∉ s.agenda.toList → SettledAt a g s n

theorem Settling.length_agenda_le (hs : Settling a g Fits Fair s) :
    s.agenda.toList.length ≤ g.nodes.length :=
  (List.subperm_of_subset s.agenda.nodup fun _ => hs.queued).length_le

open scoped Classical in
/-- Whether the output of a node is out of date. -/
noncomputable def stale (a : SuperAnalysis σ φ) (shared : σ) (n : Node) (f o : φ) : Nat :=
  if a.transfer shared n f = .ok o then 0 else 1

/-- How often the output of a node can still change: once for each time that the input or the shared
state can grow, and once more if it is out of date. -/
noncomputable def slack (a : SuperAnalysis σ φ) (height : φ → Nat) (bound : Nat) (weight : σ → Nat)
    (total : Nat) (s : SuperProgress σ φ) (n : Node) : Nat :=
  match s.input[n]?, s.output[n]? with
  | some f, some o => bound - height f + (total - weight s.shared) + stale a s.shared n f o
  | _, _ => 0

omit [SemilatticeSup φ] in
theorem slack_eq {f o : φ} (hf : s.input[n]? = some f) (ho : s.output[n]? = some o) :
    slack a height bound weight total s n =
      bound - height f + (total - weight s.shared) + stale a s.shared n f o := by
  unfold slack
  rw [hf, ho]

omit [SemilatticeSup φ] in
theorem stale_le {f o : φ} : stale a shared n f o ≤ 1 := by
  unfold stale
  split <;> omega

omit [SemilatticeSup φ] in
theorem stale_of_transfer {f o : φ} (h : a.transfer shared n f = .ok o) :
    stale a shared n f o = 0 := if_pos h

omit [SemilatticeSup φ] in
theorem stale_of_ne {f o new : φ} (h : a.transfer shared n f = .ok new) (hne : new ≠ o) :
    stale a shared n f o = 1 := by
  refine if_neg fun hc => hne ?_
  rw [h] at hc
  cases hc
  rfl

/-- How many visits can still follow: those on the agenda, and all nodes for each change. -/
noncomputable def potential (a : SuperAnalysis σ φ) (g : Supergraph) (height : φ → Nat)
    (bound : Nat) (weight : σ → Nat) (total : Nat) (s : SuperProgress σ φ) : Nat :=
  s.agenda.toList.length
    + g.nodes.length * (g.nodes.map (slack a height bound weight total s)).sum

variable [DecidableEq φ]

/-- What a visit does. -/
inductive Visited (a : SuperAnalysis σ φ) (g : Supergraph) (n : Node) (s s' : SuperProgress σ φ) :
    Prop
  | mk {before old input new : φ} {affected : List Node} :
      s.input[n]? = some before → s.output[n]? = some old →
      gather a g s.output n before = .ok input →
      a.refine s.shared n input = .ok (s'.shared, affected) →
      a.transfer s'.shared n input = .ok new →
      s'.input = s.input.insert n input → s'.output = s.output.insert n new →
      s'.agenda = (if new = old then s.agenda.pushMany affected
        else (s.agenda.pushMany affected).pushMany (g.succs n)) → Visited a g n s s'

omit [SemilatticeSup φ] in
theorem visited_of_visit (h : visit a g n s = .ok s') : Visited a g n s s' := by
  unfold visit at h
  split at h
  · next before old hb ho =>
    obtain ⟨input, hinput, h⟩ := bind_eq_ok.1 h
    obtain ⟨⟨shared, affected⟩, hrefine, h⟩ := bind_eq_ok.1 h
    obtain ⟨new, hnew, h⟩ := bind_eq_ok.1 h
    obtain rfl := pure_eq_ok.1 h
    exact .mk hb ho hinput hrefine hnew rfl rfl rfl
  · cases h

omit [SemilatticeSup φ] in
theorem mem_requeue {new old : φ} {affected succs : List Node} {m : Node} :
    m ∈ (if new = old then rest.pushMany affected
      else (rest.pushMany affected).pushMany succs).toList ↔
      m ∈ rest.toList ∨ m ∈ affected ∨ new ≠ old ∧ m ∈ succs := by
  rw [Agenda.mem_ite_pushMany, Agenda.mem_pushMany, or_assoc]

section Step

variable (hg : g.Coherent) (law : a.Lawful g Fits height bound Fair weight total)

include hg law in
theorem Settling.exists_visit (hs : Settling a g Fits Fair s)
    (hpop : s.agenda.pop? = some (n, rest)) :
    ∃ s', visit a g n { s with agenda := rest } = .ok s' := by
  have hn : n ∈ g.nodes := hs.queued (by
    rw [Agenda.pop?_eq_some hpop]
    exact List.mem_cons_self)
  obtain ⟨⟨before, hb⟩, old, ho⟩ := hs.found hn
  obtain ⟨input, hinput, -, hfits, -⟩ := exists_gather hg law n (hs.fitsIn hb) hs.fitsOut
  obtain ⟨shared, affected, hrefine, -⟩ := law.refine hn hfits
  unfold visit
  rw [hb, ho]
  obtain ⟨new, hnew, -⟩ := law.transfer (h := shared) hn hfits
  exact ⟨_, bind_eq_ok.2 ⟨_, hinput, bind_eq_ok.2 ⟨_, hrefine, bind_eq_ok.2 ⟨_, hnew, rfl⟩⟩⟩⟩

include hg law in
theorem Settling.visit (hs : Settling a g Fits Fair s) (hpop : s.agenda.pop? = some (n, rest))
    (hvisit : visit a g n { s with agenda := rest } = .ok s') : Settling a g Fits Fair s' := by
  have hagenda := Agenda.pop?_eq_some hpop
  have hn : n ∈ g.nodes := hs.queued (hagenda ▸ List.mem_cons_self)
  obtain @⟨before, old, input, new, affected, hb, ho, hinput, hrefine, hnew, hin, hout, hqueue⟩ :=
    visited_of_visit hvisit
  dsimp only at hin hout hqueue
  obtain ⟨input', hinput', hle, hfits, hedges⟩ :=
    exists_gather hg law n (hs.fitsIn hb) hs.fitsOut
  cases hinput.symm.trans hinput'
  obtain ⟨_, _, hrefine', haffected⟩ := law.refine hn hfits
  cases hrefine.symm.trans hrefine'
  obtain ⟨_, hnew', hfitsNew⟩ := law.transfer hn hfits
  cases hnew.symm.trans hnew'
  refine ⟨fun {m} hm => ?_, fun {m f} hf => ?_, fun {m o} hmo => ?_, fun {m} hm => ?_,
    fun {m b f} hm hb' hf => ?_, ?_, fun {m} hm hagenda' => ?_⟩
  · obtain ⟨hf, ho⟩ := hs.found hm
    rw [hin, hout]
    exact ⟨exists_insert hf n _, exists_insert ho n new⟩
  · rcases insert_cases (hin ▸ hf) with ⟨-, rfl⟩ | ⟨-, hf⟩
    · exact hfits
    · exact hs.fitsIn hf
  · rcases insert_cases (hout ▸ hmo) with ⟨-, rfl⟩ | ⟨-, hmo⟩
    · exact hfitsNew
    · exact hs.fitsOut hmo
  · rcases mem_requeue.1 (hqueue ▸ hm) with hm | hm | ⟨-, hm⟩
    · exact hs.queued (hagenda ▸ List.mem_cons_of_mem _ hm)
    · exact haffected m hm
    · obtain ⟨e, he, -, rfl⟩ := hg.mem_succs.1 hm
      exact hg.target_mem he
  · rcases insert_cases (hin ▸ hf) with ⟨rfl, rfl⟩ | ⟨-, hf⟩
    · exact (hs.boundary hm hb' hb).trans hle
    · exact hs.boundary hm hb' hf
  · rw [hin]
    exact law.fair hs.fair hn hb hle hfits hrefine
  · -- What is not on the agenda was not on it, is not affected, and does not follow `n` unless `n`
    -- puts out what it did before.
    rw [hqueue, mem_requeue, not_or, not_or, not_and] at hagenda'
    obtain ⟨hrest, haff, hsuccs⟩ := hagenda'
    have hold := fun hmn : m ≠ n => hs.settled hm (Agenda.not_mem_of_pop? hpop hmn hrest)
    refine ⟨fun {f} hf => ?_, fun {f o} hf hmo => ?_, fun {e f o} he htarget heo hf => ?_⟩
    · rcases insert_cases (hin ▸ hf) with ⟨rfl, rfl⟩ | ⟨hmn, hf⟩
      · exact law.refine_same hrefine
      · exact law.refine_other hrefine ((hold hmn).refine hf)
    · rcases insert_insert_cases (hin ▸ hf) (hout ▸ hmo) with ⟨rfl, rfl, rfl⟩ | ⟨hmn, hf, hmo⟩
      · exact hnew
      · exact (law.unaffected hrefine hm haff).trans ((hold hmn).transfer hf hmo)
    · have heo' : s.output[e.source]? = some o := by
        rcases insert_cases (hout ▸ heo) with ⟨hsource, rfl⟩ | ⟨-, heo⟩
        · have hsame : o = old := by_contra fun hchange =>
            hsuccs hchange (hg.mem_succs.2 ⟨e, he, hsource, htarget⟩)
          rw [hsource, hsame]
          exact ho
        · exact heo
      rcases insert_cases (hin ▸ hf) with ⟨rfl, rfl⟩ | ⟨hmn, hf⟩
      · exact hedges e (hg.mem_inEdges.2 ⟨he, htarget⟩) o heo'
      · exact (hold hmn).edges he htarget heo' hf

/-! ## Potentials -/

omit [DecidableEq φ] in
include law in
theorem height_mono {f f' : φ} (hf : Fits f) (hf' : Fits f') (h : f ≤ f') :
    height f ≤ height f' := by
  rcases eq_or_lt_of_le h with rfl | hlt
  · exact Nat.le_refl _
  · exact (law.height_lt hf hf' hlt).le

include law in
/-- A visit that changes the output of its node or the shared state uses up some of what can happen
at the node. -/
theorem slack_visit_self {before old input new : φ} {affected : List Node}
    (hbefore : Fits before) (hinput : Fits input) (hle : before ≤ input)
    (hb : s.input[n]? = some before) (ho : s.output[n]? = some old)
    (hrefine : a.refine s.shared n input = .ok (s'.shared, affected))
    (hnew : a.transfer s'.shared n input = .ok new) (htotal : weight s'.shared ≤ total)
    (hin : s'.input = s.input.insert n input) (hout : s'.output = s.output.insert n new) :
    slack a height bound weight total s' n ≤ slack a height bound weight total s n ∧
      (new = old ∧ affected = [] ∨ slack a height bound weight total s' n + 1 ≤
        slack a height bound weight total s n) := by
  have hself : slack a height bound weight total s' n =
      bound - height input + (total - weight s'.shared) := by
    rw [slack_eq (hin ▸ ExtTreeMap.getElem?_insert_self) (hout ▸ ExtTreeMap.getElem?_insert_self),
      stale_of_transfer hnew, Nat.add_zero]
  have hheight := height_mono law hbefore hinput hle
  have hbound := law.height_le hinput
  rw [hself, slack_eq hb ho]
  rcases law.weight_lt hrefine with ⟨hsame, rfl⟩ | hlt
  · rw [hsame] at hnew ⊢
    refine ⟨by omega, ?_⟩
    by_cases hchange : new = old
    · exact Or.inl ⟨hchange, rfl⟩
    · -- The output has changed, so it was out of date or the input has grown.
      refine Or.inr ?_
      rcases eq_or_lt_of_le hle with rfl | hup
      · have := stale_of_ne hnew hchange
        omega
      · have := law.height_lt hbefore hinput hup
        omega
  · exact ⟨by omega, Or.inr (by omega)⟩

omit [DecidableEq φ] in
include law in
/-- A visit adds nothing to what can happen at another node: when the shared state grows, this makes
up for an output that is out of date now. -/
theorem slack_visit_other {m : Node} {f o input new : φ} {affected : List Node}
    (hf : s.input[m]? = some f) (ho : s.output[m]? = some o) (hmn : m ≠ n)
    (hrefine : a.refine s.shared n input = .ok (s'.shared, affected))
    (htotal : weight s'.shared ≤ total)
    (hin : s'.input = s.input.insert n input) (hout : s'.output = s.output.insert n new) :
    slack a height bound weight total s' m ≤ slack a height bound weight total s m := by
  rw [slack_eq (hin ▸ (getElem?_insert_of_ne hmn).trans hf)
    (hout ▸ (getElem?_insert_of_ne hmn).trans ho), slack_eq hf ho]
  rcases law.weight_lt hrefine with ⟨hsame, -⟩ | hlt
  · rw [hsame]
  · have hstale : stale a s'.shared m f o ≤ 1 := stale_le
    omega

include hg law in
theorem Settling.potential_visit (hs : Settling a g Fits Fair s)
    (hpop : s.agenda.pop? = some (n, rest))
    (hvisit : Super.visit a g n { s with agenda := rest } = .ok s') :
    potential a g height bound weight total s' < potential a g height bound weight total s := by
  have hagenda := Agenda.pop?_eq_some hpop
  have hn : n ∈ g.nodes := hs.queued (hagenda ▸ List.mem_cons_self)
  have hlength := (hs.visit hg law hpop hvisit).length_agenda_le
  obtain @⟨before, old, input, new, affected, hb, ho, hinput, hrefine, hnew, hin, hout, hqueue⟩ :=
    visited_of_visit hvisit
  dsimp only at hb ho hinput hrefine hnew hin hout hqueue
  obtain ⟨_, hinput', hle, hfits, -⟩ := exists_gather hg law n (hs.fitsIn hb) hs.fitsOut
  cases hinput.symm.trans hinput'
  have htotal := law.weight_le (law.fair hs.fair hn hb hle hfits hrefine)
  obtain ⟨hself, hchange⟩ :=
    slack_visit_self law (hs.fitsIn hb) hfits hle hb ho hrefine hnew htotal hin hout
  have hterms : ∀ m ∈ g.nodes,
      slack a height bound weight total s' m ≤ slack a height bound weight total s m := by
    intro m hm
    by_cases hmn : m = n
    · exact hmn ▸ hself
    · obtain ⟨⟨f, hf⟩, o, ho⟩ := hs.found hm
      exact slack_visit_other law hf ho hmn hrefine htotal hin hout
  unfold potential
  rw [hagenda, List.length_cons]
  rcases hchange with ⟨rfl, rfl⟩ | hdrop
  · have hrest : s'.agenda = rest := hqueue.trans (if_pos rfl)
    have hsum := List.sum_le_sum hterms
    have hmul := Nat.mul_le_mul_left g.nodes.length hsum
    rw [hrest]
    omega
  · have hsum := sum_map_add_le hn hterms hdrop
    have hmul := Nat.mul_le_mul_left g.nodes.length hsum
    rw [Nat.mul_add, Nat.mul_one] at hmul
    omega

end Step

/-! ## Runs -/

omit [SemilatticeSup φ] in
theorem run_of_done (limit : Nat) (h : s.agenda.toList = []) : run a g limit s = .ok s := by
  unfold run
  rw [Agenda.pop?_eq_none.2 h]

omit [SemilatticeSup φ] in
theorem run_succ (hpop : s.agenda.pop? = some (n, rest))
    (hvisit : visit a g n { s with agenda := rest } = .ok s') (limit : Nat) :
    run a g (limit + 1) s = run a g limit s' := by
  rw [run, hpop]
  show visit a g n { s with agenda := rest } >>= run a g limit = _
  rw [hvisit]
  rfl

/-! ## The beginning -/

/-- The facts with which an analysis starts. -/
def Initial (a : SuperAnalysis σ φ) (g : Supergraph) (input : ExtTreeMap Node φ) : Prop :=
  ∀ (n : Node) (f : φ), input[n]? = some f →
    f = a.initial ∨ ∃ m ∈ g.entries, n = .entry m ∧ a.boundary m = .ok f

omit [SemilatticeSup φ] [DecidableEq φ] in
/-- The facts at the entries. -/
theorem mem_boundary {boundary : List (Node × φ)} {f : φ}
    (h : (g.entries.mapM fun m => do return (Node.entry m, ← a.boundary m)) = .ok boundary) :
    (n, f) ∈ boundary ↔ ∃ m ∈ g.entries, n = .entry m ∧ a.boundary m = .ok f := by
  rw [mem_of_mapM h]
  simp only [bind_eq_ok, pure_eq_ok, Prod.mk.injEq]
  constructor
  · rintro ⟨m, hm, f', hf, rfl, rfl⟩
    exact ⟨m, hm, rfl, hf⟩
  · rintro ⟨m, hm, rfl, hf⟩
    exact ⟨m, hm, f, hf, rfl, rfl⟩

omit [SemilatticeSup φ] [DecidableEq φ] in
/-- The boundary is inserted last, so no entry keeps the initial fact. -/
theorem start_cases {boundary : List (Node × φ)} {f : φ}
    (h : (ExtTreeMap.ofList ((g.nodes.map fun n => (n, a.initial)) ++ boundary))[n]? = some f) :
    (n, f) ∈ boundary ∨ f = a.initial ∧ ∀ f', (n, f') ∉ boundary := by
  rw [ExtTreeMap.ofList_eq_insertMany_empty, ExtTreeMap.insertMany_append] at h
  rcases insertMany_cases h with h | ⟨h, hnot⟩
  · exact Or.inl h
  · rw [getElem?_insertMany_map fun _ => a.initial] at h
    split at h
    · cases h
      exact Or.inr ⟨rfl, hnot⟩
    · simp at h

omit [SemilatticeSup φ] [DecidableEq φ] in
theorem exists_getElem?_start (hn : n ∈ g.nodes) (boundary : List (Node × φ)) :
    ∃ f, (ExtTreeMap.ofList ((g.nodes.map fun n => (n, a.initial)) ++ boundary))[n]? =
      some f := by
  rw [ExtTreeMap.ofList_eq_insertMany_empty, ExtTreeMap.insertMany_append]
  refine exists_insertMany ⟨a.initial, ?_⟩ boundary
  rw [getElem?_insertMany_map fun _ => a.initial, if_pos hn]

omit [SemilatticeSup φ] [DecidableEq φ] in
/-- At first the same facts flow into nodes and out of them. -/
theorem initial_of_start (h : start a g shared = .ok s) :
    Initial a g s.input ∧ s.output = s.input := by
  obtain ⟨boundary, hboundary, h⟩ := bind_eq_ok.1 h
  cases h
  refine ⟨fun n f hf => ?_, rfl⟩
  rcases start_cases hf with hf | ⟨rfl, -⟩
  · exact Or.inr ((mem_boundary hboundary).1 hf)
  · exact Or.inl rfl

omit [DecidableEq φ] in
theorem exists_start (law : a.Lawful g Fits height bound Fair weight total)
    (hfair : ∀ input, Initial a g input → Fair shared input) :
    ∃ s, start a g shared = .ok s ∧ Settling a g Fits Fair s := by
  obtain ⟨s, hstart⟩ : ∃ s, start a g shared = .ok s := by
    obtain ⟨boundary, hboundary⟩ := exists_mapM
      (f := fun m => do return (Node.entry m, ← a.boundary m)) fun m (hm : m ∈ g.entries) => by
        obtain ⟨f, hf, -⟩ := law.boundary hm
        exact ⟨(Node.entry m, f), bind_eq_ok.2 ⟨f, hf, rfl⟩⟩
    exact ⟨_, bind_eq_ok.2 ⟨boundary, hboundary, rfl⟩⟩
  have hinitial := (initial_of_start hstart).1
  obtain ⟨boundary, hboundary, h⟩ := bind_eq_ok.1 hstart
  cases h
  have hmem : ∀ {n f}, (n, f) ∈ boundary ↔ ∃ m ∈ g.entries, n = .entry m ∧ a.boundary m = .ok f :=
    mem_boundary hboundary
  have hfits : ∀ {n : Node} {f : φ}, (ExtTreeMap.ofList ((g.nodes.map fun n => (n, a.initial))
      ++ boundary))[n]? = some f → Fits f := by
    intro n f hf
    rcases hinitial n f hf with rfl | ⟨m, hm, -, hf⟩
    · exact law.initial
    · obtain ⟨f', hf', hfits⟩ := law.boundary hm
      cases hf.symm.trans hf'
      exact hfits
  refine ⟨_, hstart, fun {n} hn => ?_, hfits, hfits,
    fun hn => Agenda.mem_ofList.1 hn, fun {m b f} hm hb hf => ?_, hfair _ hinitial,
    fun hn hout => absurd (Agenda.mem_ofList.2 hn) hout⟩
  · exact ⟨exists_getElem?_start hn boundary, exists_getElem?_start hn boundary⟩
  · rcases start_cases hf with hf | ⟨-, hnot⟩
    · obtain ⟨m', -, heq, hf⟩ := hmem.1 hf
      cases heq
      cases hb.symm.trans hf
      exact le_rfl
    · exact absurd (hmem.2 ⟨m, hm, rfl, hb⟩) (hnot b)

omit [DecidableEq φ] in
theorem Settling.potential_le (hs : Settling a g Fits Fair s) :
    potential a g height bound weight total s ≤
      g.nodes.length * (g.nodes.length * (bound + total + 1) + 1) := by
  have hslack : ∀ n ∈ g.nodes, slack a height bound weight total s n ≤ bound + total + 1 := by
    intro n hn
    obtain ⟨⟨f, hf⟩, o, ho⟩ := hs.found hn
    have hstale : stale a s.shared n f o ≤ 1 := stale_le
    rw [slack_eq hf ho]
    omega
  have hsum : (g.nodes.map (slack a height bound weight total s)).sum ≤
      g.nodes.length * (bound + total + 1) := by
    have := List.sum_le_card_nsmul (g.nodes.map (slack a height bound weight total s)) _
      (by simpa using hslack)
    rwa [List.length_map] at this
  have hmul := Nat.mul_le_mul_left g.nodes.length hsum
  have hlength := hs.length_agenda_le
  unfold potential
  rw [Nat.mul_add, Nat.mul_one]
  omega

omit [DecidableEq φ] in
/-- Where nothing is left to be visited, the facts solve the analysis. -/
theorem Settling.solved (hg : g.Coherent) (hs : Settling a g Fits Fair s)
    (hdone : s.agenda.toList = []) : SuperSolved a g s.shared s.input s.output := by
  have hsettled := fun {n} (hn : n ∈ g.nodes) => hs.settled hn (by simp [hdone])
  refine ⟨hs.boundary, fun {n} hn => ?_, fun {e f o} he ho hf => ?_⟩
  · obtain ⟨⟨f, hf⟩, o, ho⟩ := hs.found hn
    exact ⟨f, o, hf, ho, (hsettled hn).refine hf, (hsettled hn).transfer hf ho⟩
  · exact (hsettled (hg.target_mem he)).edges he rfl ho hf

/-- The visits that the bounds allow for lead to a state in which nothing is left to be visited. -/
theorem exists_run {limit : Nat} (hg : g.Coherent)
    (law : a.Lawful g Fits height bound Fair weight total)
    (hfair : ∀ input, Initial a g input → Fair shared input)
    (hlimit : g.nodes.length * (g.nodes.length * (bound + total + 1) + 1) ≤ limit) :
    ∃ first final, start a g shared = .ok first ∧ Settling a g Fits Fair first ∧
      run a g limit first = .ok final ∧ Settling a g Fits Fair final ∧
      final.agenda.toList = [] := by
  obtain ⟨first, hstart, hfirst⟩ := exists_start law hfair
  obtain ⟨final, hrun, hfinal, hdone⟩ := exists_run_of_measure run_of_done
    (fun {s} hs => by
      cases hpop : s.agenda.pop? with
      | none => exact Or.inl (Agenda.pop?_eq_none.1 hpop)
      | some next =>
        obtain ⟨s', hvisit⟩ := hs.exists_visit hg law hpop
        exact Or.inr ⟨s', run_succ hpop hvisit, hs.visit hg law hpop hvisit,
          hs.potential_visit hg law hpop hvisit⟩)
    hfirst (hfirst.potential_le.trans hlimit)
  exact ⟨first, final, hstart, hfirst, hrun, hfinal, hdone⟩

/-! ## Visits -/

/-- The states that visits lead to, with the number of visits. -/
inductive Visits (a : SuperAnalysis σ φ) (g : Supergraph) (first : SuperProgress σ φ) :
    Nat → SuperProgress σ φ → Prop
  | start : Visits a g first 0 first
  | visit {k : Nat} {n : Node} {rest : Agenda Node} {s s' : SuperProgress σ φ} :
      Visits a g first k s → s.agenda.pop? = some (n, rest) →
      Super.visit a g n { s with agenda := rest } = .ok s' → Visits a g first (k + 1) s'

variable {first : SuperProgress σ φ} {k : Nat}

omit [SemilatticeSup φ] in
/-- A run that has come to its end is made of visits. -/
theorem Visits.run {limit : Nat} (hs : Visits a g first k s) (hrun : run a g limit s = .ok s') :
    ∃ k', Visits a g first k' s' := by
  induction limit generalizing k s with
  | zero =>
    unfold Super.run at hrun
    split at hrun
    · cases hrun
      exact ⟨k, hs⟩
    · cases hrun
  | succ limit ih =>
    unfold Super.run at hrun
    split at hrun
    · cases hrun
      exact ⟨k, hs⟩
    · next n rest hpop =>
      obtain ⟨next, hnext, hrun⟩ := bind_eq_ok.1 hrun
      exact ih (hs.visit hpop hnext) hrun

/-- Each visit uses up some of the potential with which the visits have started. -/
theorem Visits.settling (hg : g.Coherent) (law : a.Lawful g Fits height bound Fair weight total)
    (hfirst : Settling a g Fits Fair first) (hs : Visits a g first k s) :
    Settling a g Fits Fair s ∧ potential a g height bound weight total s + k ≤
      potential a g height bound weight total first := by
  induction hs with
  | start => exact ⟨hfirst, Nat.le_refl _⟩
  | visit _ hpop hvisit ih =>
    obtain ⟨hs, hle⟩ := ih
    have hlt := hs.potential_visit hg law hpop hvisit
    exact ⟨hs.visit hg law hpop hvisit, by omega⟩

end Super

end Dataflow

end

end ObjectFlow
