import Mathlib.Algebra.BigOperators.Ring.List
import Mathlib.Algebra.Order.BigOperators.Group.List
import Mathlib.Algebra.Order.Ring.Nat
import Mathlib.Order.Lattice
import ObjectFlow.Dataflow.Analysis
import ObjectFlow.Proofs.Accepted

/-!
# Solving a data flow analysis

Visiting nodes in turn comes to an end, and where it ends the facts solve the equations of the
analysis as far as they have to: what flows out of a node is computed from what flows in, and what
flows in is above what flows out of each predecessor (`Solved`). Nothing is assumed of how the
analysis computes what flows out. What makes the visits come to an end is that the inputs only grow
and can grow only so often (`Analysis.Lawful`).

While nodes are visited, every node that is not on the agenda is settled (`Settling`). Each visit
uses up some of what can still happen, which `potential` measures.
-/

namespace ObjectFlow

open Std

/-! ## Agendas -/

namespace Agenda

variable {α : Type} [Keyed α] [DecidableEq α] {q : Agenda α} {a b : α}

theorem mem_push : b ∈ (q.push a).toList ↔ b ∈ q.toList ∨ b = a := by
  rw [toList_push]
  split
  · next h => exact ⟨Or.inl, fun hb => hb.elim id fun hb => hb ▸ h⟩
  · simp

theorem mem_pushMany {as : List α} : b ∈ (q.pushMany as).toList ↔ b ∈ q.toList ∨ b ∈ as := by
  induction as generalizing q with
  | nil => simp [pushMany]
  | cons a as ih =>
    show b ∈ ((q.push a).pushMany as).toList ↔ _
    rw [ih, mem_push, List.mem_cons, or_assoc]

theorem mem_ite_pushMany {c : Prop} [Decidable c] {as : List α} :
    b ∈ (if c then q else q.pushMany as).toList ↔ b ∈ q.toList ∨ ¬c ∧ b ∈ as := by
  split
  · next h => simp [h]
  · next h => simp [h, mem_pushMany]

omit [DecidableEq α] in
theorem not_mem_of_pop? {rest : Agenda α} (hpop : q.pop? = some (a, rest)) (hb : b ≠ a)
    (hrest : b ∉ rest.toList) : b ∉ q.toList := by
  rw [pop?_eq_some hpop, List.mem_cons, not_or]
  exact ⟨hb, hrest⟩

theorem mem_ofList {as : List α} : b ∈ (ofList as).toList ↔ b ∈ as := by
  rw [ofList, mem_pushMany]
  simp

theorem length_push_le : (q.push a).toList.length ≤ q.toList.length + 1 := by
  rw [toList_push]
  split <;> simp

theorem length_pushMany_le (as : List α) :
    (q.pushMany as).toList.length ≤ q.toList.length + as.length := by
  induction as generalizing q with
  | nil => simp [pushMany]
  | cons a as ih =>
    calc ((q.push a).pushMany as).toList.length
      _ ≤ (q.push a).toList.length + as.length := ih
      _ ≤ q.toList.length + 1 + as.length := Nat.add_le_add_right length_push_le _
      _ = q.toList.length + (a :: as).length := by
        rw [List.length_cons]
        omega

theorem length_ofList_le (as : List α) : (ofList as).toList.length ≤ as.length := by
  simpa [ofList] using length_pushMany_le (q := (∅ : Agenda α)) as

end Agenda

/-! ## Tables -/

section Tables

variable {κ α : Type} [Keyed κ] {t : ExtTreeMap κ α} {k l : κ} {a b : α}

theorem getElem?_insert_of_ne (h : k ≠ l) : (t.insert l a)[k]? = t[k]? := by
  rw [ExtTreeMap.getElem?_insert, if_neg]
  rw [LawfulEqOrd.compare_eq_iff_eq]
  exact Ne.symm h

/-- What is found in a table after an insertion has been inserted or was there before. -/
theorem insert_cases (h : (t.insert l a)[k]? = some b) :
    k = l ∧ b = a ∨ k ≠ l ∧ t[k]? = some b := by
  by_cases hkl : k = l
  · subst hkl
    rw [ExtTreeMap.getElem?_insert_self] at h
    exact Or.inl ⟨rfl, (Option.some.inj h).symm⟩
  · exact Or.inr ⟨hkl, (getElem?_insert_of_ne hkl).symm.trans h⟩

/-- Two tables with an insertion at the same place. -/
theorem insert_insert_cases {u : ExtTreeMap κ α} {c d : α} (h : (t.insert l a)[k]? = some b)
    (hu : (u.insert l c)[k]? = some d) :
    k = l ∧ b = a ∧ d = c ∨ k ≠ l ∧ t[k]? = some b ∧ u[k]? = some d := by
  rcases insert_cases h with ⟨hk, hb⟩ | ⟨hk, hb⟩
  · rcases insert_cases hu with ⟨-, hd⟩ | ⟨hne, -⟩
    · exact Or.inl ⟨hk, hb, hd⟩
    · exact absurd hk hne
  · rcases insert_cases hu with ⟨heq, -⟩ | ⟨-, hd⟩
    · exact absurd heq hk
    · exact Or.inr ⟨hk, hb, hd⟩

theorem exists_insert (h : ∃ b, t[k]? = some b) (l : κ) (a : α) :
    ∃ b, (t.insert l a)[k]? = some b := by
  by_cases hkl : k = l
  · exact ⟨a, by rw [hkl, ExtTreeMap.getElem?_insert_self]⟩
  · rwa [getElem?_insert_of_ne hkl]

/-- What is found after many insertions is among them, or was there before and has not been
replaced. -/
theorem insertMany_cases {entries : List (κ × α)} (h : (t.insertMany entries)[k]? = some b) :
    (k, b) ∈ entries ∨ t[k]? = some b ∧ ∀ a, (k, a) ∉ entries := by
  induction entries generalizing t with
  | nil => exact Or.inr ⟨by simpa using h, by simp⟩
  | cons e entries ih =>
    rw [ExtTreeMap.insertMany_cons] at h
    rcases ih h with hmem | ⟨h, hnot⟩
    · exact Or.inl (List.mem_cons_of_mem _ hmem)
    · rcases insert_cases h with ⟨rfl, rfl⟩ | ⟨hne, h⟩
      · exact Or.inl List.mem_cons_self
      · refine Or.inr ⟨h, fun a ha => ?_⟩
        rcases List.mem_cons.1 ha with rfl | ha
        · exact hne rfl
        · exact hnot a ha

theorem exists_insertMany (h : ∃ b, t[k]? = some b) (entries : List (κ × α)) :
    ∃ b, (t.insertMany entries)[k]? = some b := by
  induction entries generalizing t with
  | nil => simpa using h
  | cons e entries ih =>
    rw [ExtTreeMap.insertMany_cons]
    exact ih (exists_insert h e.1 e.2)

/-- A table of the values of a function finds the value of each listed argument. -/
theorem getElem?_insertMany_map [DecidableEq κ] (f : κ → α) (ks : List κ) (t : ExtTreeMap κ α) :
    (t.insertMany (ks.map fun k => (k, f k)))[k]? = if k ∈ ks then some (f k) else t[k]? := by
  induction ks generalizing t with
  | nil => simp
  | cons l ks ih =>
    rw [List.map_cons, ExtTreeMap.insertMany_cons, ih]
    by_cases hk : k ∈ ks
    · simp [hk]
    · by_cases hkl : k = l
      · subst hkl
        simp [hk]
      · simp [hk, hkl, getElem?_insert_of_ne hkl]

end Tables

/-- If one term of a sum gets smaller and no other term grows, the sum gets smaller by as much. -/
theorem sum_map_add_le {α : Type} {f g : α → Nat} {as : List α} {a : α} {d : Nat} (ha : a ∈ as)
    (hle : ∀ b ∈ as, g b ≤ f b) (hd : g a + d ≤ f a) :
    (as.map g).sum + d ≤ (as.map f).sum := by
  induction as with
  | nil => cases ha
  | cons b as ih =>
    have hrest : (as.map g).sum ≤ (as.map f).sum :=
      List.sum_le_sum fun c hc => hle c (List.mem_cons_of_mem _ hc)
    have hb : g b ≤ f b := hle b List.mem_cons_self
    rw [List.map_cons, List.sum_cons, List.map_cons, List.sum_cons]
    rcases List.mem_cons.1 ha with rfl | ha
    · omega
    · have := ih ha fun c hc => hle c (List.mem_cons_of_mem _ hc)
      omega

/-- A bounded loop comes to its end under an invariant, if it is done or one more round keeps the
invariant and lowers a measure. -/
theorem exists_run_of_measure {S : Type} {run : Nat → S → Except Fault S} {P Done : S → Prop}
    {measure : S → Nat} (hdone : ∀ {s} limit, Done s → run limit s = .ok s)
    (hround : ∀ {s}, P s → Done s ∨ ∃ s', (∀ limit, run (limit + 1) s = run limit s') ∧ P s' ∧
      measure s' < measure s)
    {s : S} {limit : Nat} (hs : P s) (hlimit : measure s ≤ limit) :
    ∃ s', run limit s = .ok s' ∧ P s' ∧ Done s' := by
  induction limit generalizing s with
  | zero =>
    rcases hround hs with hend | ⟨s', -, -, hlt⟩
    · exact ⟨s, hdone 0 hend, hs, hend⟩
    · omega
  | succ limit ih =>
    rcases hround hs with hend | ⟨s', hrun, hs', hlt⟩
    · exact ⟨s, hdone _ hend, hs, hend⟩
    · obtain ⟨final, hfinal, hend⟩ := ih hs' (by omega)
      exact ⟨final, (hrun limit).trans hfinal, hend⟩

/-! ## Graphs and analyses -/

/-- Edges lead from nodes to nodes, and may be followed both ways. -/
structure FlowGraph.Coherent {ν : Type} (g : FlowGraph ν) : Prop where
  entry_mem : g.entry ∈ g.nodes
  succs_mem : ∀ {m n}, m ∈ g.nodes → n ∈ g.succs m → n ∈ g.nodes
  mem_preds : ∀ {m n}, m ∈ g.preds n ↔ n ∈ g.succs m

theorem FlowGraph.visitBound_reverse {ν : Type} (g : FlowGraph ν) (height : Nat) :
    g.reverse.visitBound height = g.visitBound height := by
  have hcount : ∀ n, (g.reverse.succs n ++ g.reverse.preds n).length =
      (g.succs n ++ g.preds n).length := by
    intro n
    rw [List.length_append, List.length_append]
    exact Nat.add_comm ..
  unfold visitBound
  simp only [List.length_flatMap, hcount]
  rfl

/-- The graph as the facts flow through it. -/
def Analysis.along {ν φ : Type} (a : Analysis ν φ) (g : FlowGraph ν) : FlowGraph ν :=
  match a.direction with
  | .forward => g
  | .backward => g.reverse

theorem Analysis.visitBound_along {ν φ : Type} (a : Analysis ν φ) (g : FlowGraph ν)
    (height : Nat) : (a.along g).visitBound height = g.visitBound height := by
  unfold along
  cases a.direction with
  | forward => rfl
  | backward => exact g.visitBound_reverse height

/-- The facts that flow into the nodes. -/
def Solution.entering {ν φ : Type} [Keyed ν] (r : Solution ν φ) : Direction → ExtTreeMap ν φ
  | .forward => r.inFacts
  | .backward => r.outFacts

/-- The facts that flow out of the nodes. -/
def Solution.leaving {ν φ : Type} [Keyed ν] (r : Solution ν φ) : Direction → ExtTreeMap ν φ
  | .forward => r.outFacts
  | .backward => r.inFacts

/-- Some facts fit the graph: they can be met and transferred, and the results fit as well. -/
structure Analysis.Closed {ν φ : Type} [SemilatticeSup φ] (a : Analysis ν φ) (g : FlowGraph ν)
    (Fits : φ → Prop) : Prop where
  meet : ∀ f f', a.meet f f' = f ⊔ f'
  boundary : Fits a.boundary
  initial : Fits a.initial
  sup : ∀ {f f'}, Fits f → Fits f' → Fits (f ⊔ f')
  transfer : ∀ {n f}, n ∈ g.nodes → Fits f → ∃ f', a.transfer n f = .ok f' ∧ Fits f'

/-- What solving an analysis within a given number of visits relies on. A fact that fits can grow at
most `bound` times. -/
structure Analysis.Lawful {ν φ : Type} [SemilatticeSup φ] (a : Analysis ν φ) (g : FlowGraph ν)
    (Fits : φ → Prop) (height : φ → Nat) (bound : Nat) : Prop extends a.Closed g Fits where
  height_lt : ∀ {f f'}, Fits f → Fits f' → f < f' → height f < height f'
  height_le : ∀ {f}, Fits f → height f ≤ bound

namespace Dataflow

variable {ν φ : Type} [Keyed ν] [SemilatticeSup φ] {a : Analysis ν φ} {g : FlowGraph ν}

/-- The facts solve an analysis: the node where facts start to flow keeps its fact, and every other
node puts out what it computes from an input that is above what its predecessors put out. -/
structure Solved (a : Analysis ν φ) (g : FlowGraph ν) (input output : ExtTreeMap ν φ) : Prop where
  boundary : input[g.entry]? = some a.boundary ∧ output[g.entry]? = some a.boundary
  transfer : ∀ {n}, n ∈ g.nodes → n ≠ g.entry →
    ∃ f o, input[n]? = some f ∧ output[n]? = some o ∧ a.transfer n f = .ok o
  preds : ∀ {m n f o}, n ∈ g.nodes → n ≠ g.entry → m ∈ g.preds n → input[n]? = some f →
    output[m]? = some o → o ≤ f

theorem Solved.exists_facts {input output : ExtTreeMap ν φ} (hs : Solved a g input output) {n : ν}
    (hn : n ∈ g.nodes) : ∃ f o, input[n]? = some f ∧ output[n]? = some o := by
  by_cases hentry : n = g.entry
  · subst hentry
    exact ⟨_, _, hs.boundary.1, hs.boundary.2⟩
  · obtain ⟨f, o, hf, ho, -⟩ := hs.transfer hn hentry
    exact ⟨f, o, hf, ho⟩

/-! ## Gathering -/

section Gather

variable {Fits : φ → Prop} (law : a.Closed g Fits) {output : ExtTreeMap ν φ}
include law

/-- What is gathered is above the start and above what the predecessors put out, and fits. -/
theorem gather_spec (n : ν) {start : φ} (hstart : Fits start)
    (hout : ∀ {m : ν} {o : φ}, output[m]? = some o → Fits o) :
    start ≤ gather a g output n start ∧ Fits (gather a g output n start) ∧
      ∀ m ∈ g.preds n, ∀ o, output[m]? = some o → o ≤ gather a g output n start := by
  unfold gather
  induction g.preds n generalizing start with
  | nil => simpa using hstart
  | cons m ms ih =>
    rw [List.foldl_cons]
    cases hm : output[m]? with
    | none =>
      obtain ⟨hle, hfits, hpreds⟩ := ih hstart
      refine ⟨hle, hfits, fun m' hm' o ho => ?_⟩
      rcases List.mem_cons.1 hm' with rfl | hm'
      · rw [hm] at ho
        cases ho
      · exact hpreds m' hm' o ho
    | some f =>
      dsimp only
      rw [law.meet f start]
      obtain ⟨hle, hfits, hpreds⟩ := ih (law.sup (hout hm) hstart)
      refine ⟨le_sup_right.trans hle, hfits, fun m' hm' o ho => ?_⟩
      rcases List.mem_cons.1 hm' with rfl | hm'
      · rw [hm] at ho
        cases ho
        exact le_sup_left.trans hle
      · exact hpreds m' hm' o ho

end Gather

/-! ## Settled nodes -/

/-- A node puts out what it computes from its input, which is above what its predecessors put out.
-/
structure SettledAt (a : Analysis ν φ) (g : FlowGraph ν) (s : Progress ν φ) (n : ν) : Prop where
  transfer : ∀ {f o}, s.input[n]? = some f → s.output[n]? = some o → a.transfer n f = .ok o
  preds : ∀ {m f o}, m ∈ g.preds n → s.input[n]? = some f → s.output[m]? = some o → o ≤ f

/-- What holds between visits. -/
structure Settling (a : Analysis ν φ) (g : FlowGraph ν) (Fits : φ → Prop) (s : Progress ν φ) :
    Prop where
  found : ∀ {n}, n ∈ g.nodes → (∃ f, s.input[n]? = some f) ∧ ∃ o, s.output[n]? = some o
  fitsIn : ∀ {n : ν} {f : φ}, s.input[n]? = some f → Fits f
  fitsOut : ∀ {n : ν} {o : φ}, s.output[n]? = some o → Fits o
  queued : ∀ {n}, n ∈ s.agenda.toList → n ∈ g.nodes ∧ n ≠ g.entry
  boundary : s.input[g.entry]? = some a.boundary ∧ s.output[g.entry]? = some a.boundary
  settled : ∀ {n}, n ∈ g.nodes → n ≠ g.entry → n ∉ s.agenda.toList → SettledAt a g s n

open scoped Classical in
/-- How often the output of a node can still change: once for each time that the input can grow, and
once more if it is out of date. -/
noncomputable def slack (a : Analysis ν φ) (height : φ → Nat) (bound : Nat) (s : Progress ν φ)
    (n : ν) : Nat :=
  match s.input[n]?, s.output[n]? with
  | some f, some o => bound - height f + if a.transfer n f = .ok o then 0 else 1
  | _, _ => 0

/-- How many visits can still follow: those on the agenda, and those that a change of an output
calls for. -/
noncomputable def potential (a : Analysis ν φ) (g : FlowGraph ν) (height : φ → Nat) (bound : Nat)
    (s : Progress ν φ) : Nat :=
  s.agenda.toList.length
    + (g.nodes.map fun n => slack a height bound s n * (g.succs n).length).sum

variable [DecidableEq ν] [DecidableEq φ] {Fits : φ → Prop} {height : φ → Nat} {bound : Nat}
  {s s' : Progress ν φ} {n : ν} {rest : Agenda ν}

/-- What a visit does. -/
inductive Visited (a : Analysis ν φ) (g : FlowGraph ν) (n : ν) (s : Progress ν φ) :
    Progress ν φ → Prop
  | mk {before old new : φ} : s.input[n]? = some before → s.output[n]? = some old →
      a.transfer n (gather a g s.output n before) = .ok new →
      Visited a g n s {
        input := s.input.insert n (gather a g s.output n before)
        output := s.output.insert n new
        agenda := if new = old then s.agenda
          else s.agenda.pushMany ((g.succs n).filter (· ≠ g.entry))
        visited := n :: s.visited }

omit [SemilatticeSup φ] in
theorem visit_eq_ok : visit a g n s = .ok s' ↔ Visited a g n s s' := by
  unfold visit
  constructor
  · intro h
    split at h
    · next before old hb ho =>
      obtain ⟨new, hnew, h⟩ := bind_eq_ok.1 h
      obtain rfl := pure_eq_ok.1 h
      exact .mk hb ho hnew
    · cases h
  · rintro ⟨hb, ho, hnew⟩
    rw [hb, ho]
    exact bind_eq_ok.2 ⟨_, hnew, rfl⟩

section Step

variable (hg : g.Coherent) (law : a.Closed g Fits)

include law in
theorem Settling.exists_visit (hs : Settling a g Fits s) (hpop : s.agenda.pop? = some (n, rest)) :
    ∃ s', visit a g n { s with agenda := rest } = .ok s' := by
  have hn : n ∈ s.agenda.toList := by
    rw [Agenda.pop?_eq_some hpop]
    exact List.mem_cons_self
  obtain ⟨⟨before, hb⟩, old, ho⟩ := hs.found (hs.queued hn).1
  obtain ⟨-, hfits, -⟩ := gather_spec law n (hs.fitsIn hb) hs.fitsOut
  obtain ⟨new, hnew, -⟩ := law.transfer (hs.queued hn).1 hfits
  exact ⟨_, visit_eq_ok.2 (.mk hb ho hnew)⟩

include hg law in
/-- After a visit, the node is settled unless it follows itself. -/
theorem Settling.visit (hs : Settling a g Fits s) (hpop : s.agenda.pop? = some (n, rest))
    (hvisit : visit a g n { s with agenda := rest } = .ok s') : Settling a g Fits s' := by
  have hagenda := Agenda.pop?_eq_some hpop
  obtain ⟨hn, hne⟩ := hs.queued (hagenda ▸ List.mem_cons_self)
  obtain @⟨before, old, new, hb, ho, hnew⟩ := visit_eq_ok.1 hvisit
  obtain ⟨-, hfits, hpreds⟩ := gather_spec law n (hs.fitsIn hb) hs.fitsOut
  obtain ⟨_, hnew', hfitsNew⟩ := law.transfer hn hfits
  rw [hnew] at hnew'
  cases hnew'
  -- What stays on the agenda, and what a change of the output adds.
  have hqueue : ∀ {m}, m ∈ (if new = old then rest
      else rest.pushMany ((g.succs n).filter (· ≠ g.entry))).toList ↔
        m ∈ rest.toList ∨ new ≠ old ∧ m ∈ g.succs n ∧ m ≠ g.entry := by
    intro m
    rw [Agenda.mem_ite_pushMany, List.mem_filter, decide_eq_true_iff]
  refine ⟨fun {m} hm => ?_, fun {m f} hf => ?_, fun {m o} hmo => ?_, fun {m} hm => ?_, ?_,
    fun {m} hm hme hout => ?_⟩
  · obtain ⟨hf, ho⟩ := hs.found hm
    exact ⟨exists_insert hf n _, exists_insert ho n new⟩
  · rcases insert_cases hf with ⟨-, rfl⟩ | ⟨-, hf⟩
    · exact hfits
    · exact hs.fitsIn hf
  · rcases insert_cases hmo with ⟨-, rfl⟩ | ⟨-, hmo⟩
    · exact hfitsNew
    · exact hs.fitsOut hmo
  · rcases hqueue.1 hm with hm | ⟨-, hm, hme⟩
    · exact hs.queued (hagenda ▸ List.mem_cons_of_mem _ hm)
    · exact ⟨hg.succs_mem hn hm, hme⟩
  · exact ⟨(getElem?_insert_of_ne hne.symm).trans hs.boundary.1,
      (getElem?_insert_of_ne hne.symm).trans hs.boundary.2⟩
  · rw [hqueue, not_or, not_and] at hout
    obtain ⟨hrest, hsuccs⟩ := hout
    refine ⟨fun {f o} hf hmo => ?_, fun {k f o} hk hf hko => ?_⟩
    · rcases insert_insert_cases hf hmo with ⟨rfl, rfl, rfl⟩ | ⟨hmn, hf, hmo⟩
      · exact hnew
      · exact (hs.settled hm hme (Agenda.not_mem_of_pop? hpop hmn hrest)).transfer hf hmo
    · -- A predecessor other than `n` is as before; `n` itself must have kept its output.
      have hko' : s.output[k]? = some o := by
        rcases insert_cases hko with ⟨rfl, rfl⟩ | ⟨-, hko⟩
        · have hsame : o = old := by_contra fun hchange =>
            hsuccs hchange ⟨hg.mem_preds.1 hk, hme⟩
          exact hsame ▸ ho
        · exact hko
      rcases insert_cases hf with ⟨rfl, rfl⟩ | ⟨hmn, hf⟩
      · exact hpreds k hk o hko'
      · exact (hs.settled hm hme (Agenda.not_mem_of_pop? hpop hmn hrest)).preds hk hf hko'

end Step

/-! ## Potentials -/

omit [SemilatticeSup φ] [DecidableEq ν] in
/-- A visit that leaves the input of its node as it is brings the output up to date. -/
theorem slack_of_gather_eq (height : φ → Nat) (bound : Nat) {before old new : φ}
    (hb : s.input[n]? = some before) (ho : s.output[n]? = some old)
    (hsame : gather a g s.output n before = before)
    (hnew : a.transfer n (gather a g s.output n before) = .ok new) :
    bound - height (gather a g s.output n before) + (if new = old then 0 else 1) ≤
      slack a height bound s n := by
  rw [hsame] at hnew ⊢
  unfold slack
  rw [hb, ho]
  dsimp only
  rw [hnew]
  by_cases hc : new = old
  · simp [hc]
  · simp [hc]

omit [DecidableEq ν] in
/-- A visit uses up some of what can happen at its node, if it changes the output. -/
theorem Settling.slack_visited (law : a.Lawful g Fits height bound) {before old new : φ}
    (hs : Settling a g Fits s) (hb : s.input[n]? = some before) (ho : s.output[n]? = some old)
    (hnew : a.transfer n (gather a g s.output n before) = .ok new) :
    bound - height (gather a g s.output n before) + (if new = old then 0 else 1) ≤
      slack a height bound s n := by
  obtain ⟨hle, hfits, -⟩ := gather_spec law.toClosed n (hs.fitsIn hb) hs.fitsOut
  rcases eq_or_lt_of_le hle with heq | hlt
  · exact slack_of_gather_eq height bound hb ho heq.symm hnew
  · have hup := law.height_lt (hs.fitsIn hb) hfits hlt
    have hbound := law.height_le hfits
    unfold slack
    rw [hb, ho]
    dsimp only
    split <;> split <;> omega

omit [SemilatticeSup φ] [DecidableEq ν] [DecidableEq φ] in
theorem slack_insert_self {input new : φ} (hin : s'.input = s.input.insert n input)
    (hout : s'.output = s.output.insert n new) (hnew : a.transfer n input = .ok new) :
    slack a height bound s' n = bound - height input := by
  unfold slack
  rw [hin, hout]
  simp only [ExtTreeMap.getElem?_insert_self]
  rw [if_pos hnew, Nat.add_zero]

omit [SemilatticeSup φ] [DecidableEq ν] [DecidableEq φ] in
theorem slack_insert_of_ne {m : ν} {input new : φ} (hin : s'.input = s.input.insert n input)
    (hout : s'.output = s.output.insert n new) (hm : m ≠ n) :
    slack a height bound s' m = slack a height bound s m := by
  unfold slack
  rw [hin, hout, getElem?_insert_of_ne hm, getElem?_insert_of_ne hm]

omit [SemilatticeSup φ] in
/-- A change of the output queues the successors at most. -/
theorem length_requeue_le (g : FlowGraph ν) (n : ν) (rest : Agenda ν) (old new : φ) :
    (if new = old then rest else rest.pushMany ((g.succs n).filter (· ≠ g.entry))).toList.length ≤
      rest.toList.length + (if new = old then 0 else 1) * (g.succs n).length := by
  split
  · simp
  · refine (Agenda.length_pushMany_le _).trans (Nat.add_le_add_left ?_ _)
    rw [Nat.one_mul]
    exact List.length_filter_le ..

omit [SemilatticeSup φ] in
/-- A visit lowers the potential, if it uses up as much as it queues. -/
theorem potential_visit {before old new : φ} (hn : n ∈ g.nodes)
    (hpop : s.agenda.pop? = some (n, rest))
    (hnew : a.transfer n (gather a g s.output n before) = .ok new)
    (hslack : bound - height (gather a g s.output n before) + (if new = old then 0 else 1) ≤
      slack a height bound s n)
    (hin : s'.input = s.input.insert n (gather a g s.output n before))
    (hout : s'.output = s.output.insert n new)
    (hagenda : s'.agenda = if new = old then rest
      else rest.pushMany ((g.succs n).filter (· ≠ g.entry))) :
    potential a g height bound s' < potential a g height bound s := by
  have hself : slack a height bound s' n = bound - height (gather a g s.output n before) :=
    slack_insert_self hin hout hnew
  have hterm : ∀ m ∈ g.nodes, slack a height bound s' m * (g.succs m).length ≤
      slack a height bound s m * (g.succs m).length := by
    intro m _
    refine Nat.mul_le_mul_right _ ?_
    by_cases hmn : m = n
    · subst hmn
      omega
    · rw [slack_insert_of_ne hin hout hmn]
  have hdrop : slack a height bound s' n * (g.succs n).length +
      (if new = old then 0 else 1) * (g.succs n).length ≤
        slack a height bound s n * (g.succs n).length := by
    rw [← Nat.add_mul, hself]
    exact Nat.mul_le_mul_right _ hslack
  have hsum := sum_map_add_le hn hterm hdrop
  have hqueue := length_requeue_le g n rest old new
  unfold potential
  rw [Agenda.pop?_eq_some hpop, List.length_cons, hagenda]
  omega

theorem Settling.potential_lt (law : a.Lawful g Fits height bound) (hs : Settling a g Fits s)
    (hpop : s.agenda.pop? = some (n, rest))
    (hvisit : Dataflow.visit a g n { s with agenda := rest } = .ok s') :
    potential a g height bound s' < potential a g height bound s := by
  obtain ⟨hn, -⟩ := hs.queued (Agenda.pop?_eq_some hpop ▸ List.mem_cons_self)
  obtain ⟨hb, ho, hnew⟩ := visit_eq_ok.1 hvisit
  exact potential_visit hn hpop hnew (hs.slack_visited law hb ho hnew) rfl rfl rfl

/-! ## Runs -/

omit [SemilatticeSup φ] in
theorem run_of_done (limit : Nat) (h : s.agenda.toList = []) : run a g limit s = .ok s := by
  unfold run
  rw [Agenda.pop?_eq_none.2 h]

omit [SemilatticeSup φ] in
theorem run_succ (hpop : s.agenda.pop? = some (n, rest))
    (hvisit : visit a g n { s with agenda := rest } = .ok s') (limit : Nat) :
    run a g (limit + 1) s = run a g limit s' := by
  rw [run, hpop]
  show visit a g n { s with agenda := rest } >>= run a g limit = _
  rw [hvisit]
  rfl

omit [SemilatticeSup φ] [DecidableEq φ] in
theorem getElem?_start : (start a g).input[n]? =
    if n ∈ g.nodes then some (if n = g.entry then a.boundary else a.initial) else none := by
  show (ExtTreeMap.ofList (g.nodes.map fun n =>
    (n, if n = g.entry then a.boundary else a.initial)))[n]? = _
  rw [ExtTreeMap.ofList_eq_insertMany_empty,
    getElem?_insertMany_map (fun n => if n = g.entry then a.boundary else a.initial)]
  simp

omit [DecidableEq φ] in
theorem settling_start (hg : g.Coherent) (law : a.Closed g Fits) :
    Settling a g Fits (start a g) := by
  have hfits : ∀ {n : ν} {f : φ}, (start a g).input[n]? = some f → Fits f := by
    intro n f hf
    rw [getElem?_start] at hf
    split at hf
    · split at hf <;> cases hf
      · exact law.boundary
      · exact law.initial
    · cases hf
  have hentry : (start a g).input[g.entry]? = some a.boundary := by
    rw [getElem?_start, if_pos hg.entry_mem, if_pos rfl]
  have hagenda : ∀ {n}, n ∈ (start a g).agenda.toList ↔ n ∈ g.nodes ∧ n ≠ g.entry := by
    intro n
    show n ∈ (Agenda.ofList _).toList ↔ _
    rw [Agenda.mem_ofList, List.mem_filter, decide_eq_true_iff]
  refine ⟨fun {n} hn => ?_, hfits, hfits, fun hn => hagenda.1 hn, ⟨hentry, hentry⟩,
    fun hn hne hout => absurd (hagenda.2 ⟨hn, hne⟩) hout⟩
  have hfound : ∃ f, (start a g).input[n]? = some f := ⟨_, getElem?_start.trans (if_pos hn)⟩
  exact ⟨hfound, hfound⟩

omit [SemilatticeSup φ] [DecidableEq φ] in
theorem potential_start_le : potential a g height bound (start a g) ≤ g.visitBound bound := by
  have hslack : ∀ n, slack a height bound (start a g) n ≤ bound + 1 := by
    intro n
    unfold slack
    split
    · split <;> omega
    · omega
  have hterms : (g.nodes.map fun n =>
        slack a height bound (start a g) n * (g.succs n).length).sum ≤
      (g.nodes.map fun n => (bound + 1) * (g.succs n ++ g.preds n).length).sum := by
    refine List.sum_le_sum fun n _ => Nat.mul_le_mul (hslack n) ?_
    rw [List.length_append]
    omega
  have hagenda : (start a g).agenda.toList.length ≤ g.nodes.length :=
    (Agenda.length_ofList_le _).trans (List.length_filter_le ..)
  unfold potential FlowGraph.visitBound
  rw [List.length_flatMap, ← List.sum_map_mul_left]
  exact Nat.add_le_add hagenda hterms

omit [DecidableEq ν] [DecidableEq φ] in
theorem Settling.solved (hs : Settling a g Fits s) (hdone : s.agenda.toList = []) :
    Solved a g s.input s.output := by
  have hout : ∀ n, n ∉ s.agenda.toList := by simp [hdone]
  refine ⟨hs.boundary, fun {n} hn hne => ?_, fun {m n f o} hn hne hm hf ho => ?_⟩
  · obtain ⟨⟨f, hf⟩, o, ho⟩ := hs.found hn
    exact ⟨f, o, hf, ho, (hs.settled hn hne (hout n)).transfer hf ho⟩
  · exact (hs.settled hn hne (hout n)).preds hm hf ho

/-- The solution that a run leads to. -/
def Progress.solution (s : Progress ν φ) : Direction → Solution ν φ
  | .forward => ⟨s.input, s.output, s.visited.reverse⟩
  | .backward => ⟨s.output, s.input, s.visited.reverse⟩

omit [SemilatticeSup φ] [DecidableEq ν] [DecidableEq φ] in
@[simp] theorem entering_solution (d : Direction) : (s.solution d).entering d = s.input := by
  cases d <;> rfl

omit [SemilatticeSup φ] [DecidableEq ν] [DecidableEq φ] in
@[simp] theorem leaving_solution (d : Direction) : (s.solution d).leaving d = s.output := by
  cases d <;> rfl

omit [SemilatticeSup φ] in
/-- Solving is to run along the flow of the facts. -/
theorem solve_of_run {limit : Nat} (h : run a (a.along g) limit (start a (a.along g)) = .ok s) :
    solve a g limit = .ok (s.solution a.direction) := by
  unfold Analysis.along at h
  unfold solve
  cases hd : a.direction with
  | forward =>
    rw [hd] at h
    exact bind_eq_ok.2 ⟨s, h, rfl⟩
  | backward =>
    rw [hd] at h
    exact bind_eq_ok.2 ⟨s, h, rfl⟩

/-- **Solving.** An analysis has a solution, and the visits that the bound allows for lead to one.
-/
theorem exists_solve (hg : (a.along g).Coherent)
    (law : a.Lawful (a.along g) Fits height bound) :
    ∃ r, solve a g (g.visitBound bound) = .ok r ∧
      Solved a (a.along g) (r.entering a.direction) (r.leaving a.direction) := by
  obtain ⟨s, hrun, hs, hdone⟩ := exists_run_of_measure run_of_done
    (fun {s} hs => by
      cases hpop : s.agenda.pop? with
      | none => exact Or.inl (Agenda.pop?_eq_none.1 hpop)
      | some next =>
        obtain ⟨s', hvisit⟩ := hs.exists_visit law.toClosed hpop
        exact Or.inr ⟨s', run_succ hpop hvisit, hs.visit hg law.toClosed hpop hvisit,
          hs.potential_lt law hpop hvisit⟩)
    (settling_start hg law.toClosed) potential_start_le
  rw [a.visitBound_along] at hrun
  refine ⟨s.solution a.direction, solve_of_run hrun, ?_⟩
  rw [entering_solution, leaving_solution]
  exact hs.solved hdone

end Dataflow

end ObjectFlow
