import Mathlib.Logic.Relation
import ObjectFlow.Proofs.LeastSolutions
import ObjectFlow.Proofs.Liveness

/-!
# Live variables are those that a path leads to

A variable is live at a node if control may go from there to a statement that reads it, and no
statement before that on the way assigns it (`Live`). The analysis finds exactly these variables at
every node of a method, also where control never comes (`mem_iff_live`).

Nothing is missed, since the facts solve the equations of the analysis: going back along a path, a
variable stays live until a statement assigns it. Nothing is added, since this holds of every state
of the analysis and not just of the last one: whatever is in a fact has come there along a path
(`Traced`).
-/

namespace ObjectFlow

open Std

namespace ControlFlow

/-- Control does not go on from the exit. -/
theorem not_mem_succs_exit {m : Method} {id : MethodId} {next : Node} :
    next ∉ (ofMethod m).succs (.exit id) := by
  intro h
  obtain ⟨e, he, hsource, -⟩ := mem_succs.1 h
  rcases List.mem_cons.1 he with rfl | he
  · cases hsource
  · obtain ⟨⟨site, s⟩, -, he⟩ := List.mem_flatMap.1 he
    obtain ⟨step, -, rfl⟩ := List.mem_map.1 he
    cases hsource

end ControlFlow

namespace LiveVariables

open Dataflow

variable {p : Program} {m : MethodId} {method : Method} {v : VarId} {n next : Node}
  {live live' : ExtTreeSet VarId} {s s' : Progress Node (ExtTreeSet VarId)}

/-! ## Paths -/

/-- A node is a statement that reads a variable. -/
def Uses (p : Program) (n : Node) (v : VarId) : Prop :=
  ∃ site s, n = .stmt site ∧ p.stmt site = .ok s ∧ v ∈ s.used

/-- A node is a statement that assigns a variable. -/
def Defines (p : Program) (n : Node) (v : VarId) : Prop :=
  ∃ site s, n = .stmt site ∧ p.stmt site = .ok s ∧ s.defined = some v

/-- Control may go from one node to another one, and the first does not assign the variable. -/
def Passes (p : Program) (m : Method) (v : VarId) (n next : Node) : Prop :=
  next ∈ (ControlFlow.ofMethod m).succs n ∧ ¬Defines p n v

/-- A path leads from a node to a statement that reads the variable, and no node before that on the
path assigns it. -/
def Live (p : Program) (m : Method) (v : VarId) (n : Node) : Prop :=
  ∃ last, Relation.ReflTransGen (Passes p m v) n last ∧ Uses p last v

/-- A path ends where it begins or takes a first step. -/
theorem live_iff : Live p method v n ↔
    Uses p n v ∨ ¬Defines p n v ∧ ∃ next ∈ (ControlFlow.ofMethod method).succs n,
      Live p method v next := by
  constructor
  · rintro ⟨last, hpath, huse⟩
    rcases Relation.ReflTransGen.cases_head_iff.1 hpath with rfl | ⟨next, ⟨hnext, hdef⟩, hrest⟩
    · exact Or.inl huse
    · exact Or.inr ⟨hdef, next, hnext, last, hrest, huse⟩
  · rintro (huse | ⟨hdef, next, hnext, last, hrest, huse⟩)
    · exact ⟨n, .refl, huse⟩
    · exact ⟨last, .head ⟨hnext, hdef⟩ hrest, huse⟩

/-! ## Transfer and gathering -/

/-- What is live before a node is read there, or is live behind it and not assigned there. -/
theorem mem_transfer_iff (h : transfer p n live = .ok live') :
    v ∈ live' ↔ Uses p n v ∨ ¬Defines p n v ∧ v ∈ live := by
  cases n with
  | entry | exit =>
    cases h
    simp [Uses, Defines]
  | stmt site =>
    obtain ⟨s, hst, -⟩ := bind_eq_ok.1 h
    have huses : Uses p (.stmt site) v ↔ v ∈ s.used := by simp [Uses, hst]
    have hdefines : Defines p (.stmt site) v ↔ s.defined = some v := by simp [Defines, hst]
    rw [mem_transfer hst h, huses, hdefines, or_comm, and_comm]

/-- What is gathered was there before or comes from a neighbour. -/
theorem mem_gather {g : FlowGraph Node} {table : ExtTreeMap Node (ExtTreeSet VarId)} :
    v ∈ gather (analysis p) g table n live ↔
      v ∈ live ∨ ∃ k ∈ g.preds n, ∃ f, table[k]? = some f ∧ v ∈ f := by
  unfold gather
  induction g.preds n generalizing live with
  | nil => simp
  | cons k ks ih =>
    rw [List.foldl_cons, ih]
    cases hk : table[k]? with
    | none => simp [hk]
    | some f => simp [hk, analysis, or_assoc]

/-! ## Nothing is added -/

/-- Whatever is in the facts has come there along a path. -/
structure Traced (p : Program) (m : Method) (s : Progress Node (ExtTreeSet VarId)) : Prop where
  behind : ∀ {n f v}, s.input[n]? = some f → v ∈ f →
    ∃ next ∈ (ControlFlow.ofMethod m).succs n, Live p m v next
  before : ∀ {n f v}, s.output[n]? = some f → v ∈ f → Live p m v n

theorem traced_start :
    Traced p method (start (analysis p) (ControlFlow.ofMethod method).graph.reverse) := by
  have hempty : ∀ {n : Node} {f : ExtTreeSet VarId} {v : VarId},
      (start (analysis p) (ControlFlow.ofMethod method).graph.reverse).input[n]? = some f →
        v ∉ f := by
    intro n f v hf
    rw [getElem?_start] at hf
    split at hf
    · cases hf
      simp [analysis]
    · cases hf
  exact ⟨fun hf hv => absurd hv (hempty hf), fun hf hv => absurd hv (hempty hf)⟩

theorem Traced.visit (hs : Traced p method s)
    (hvisit : visit (analysis p) (ControlFlow.ofMethod method).graph.reverse n s = .ok s') :
    Traced p method s' := by
  obtain @⟨old, _, new, hold, -, hnew⟩ := visit_eq_ok.1 hvisit
  have hgather : ∀ v ∈ gather (analysis p) (ControlFlow.ofMethod method).graph.reverse s.output n
      old, ∃ next ∈ (ControlFlow.ofMethod method).succs n, Live p method v next := by
    intro v hv
    rcases mem_gather.1 hv with hv | ⟨next, hnext, f, hf, hv⟩
    · exact hs.behind hold hv
    · exact ⟨next, hnext, hs.before hf hv⟩
  refine ⟨fun {k f v} hf hv => ?_, fun {k f v} hf hv => ?_⟩
  · rcases insert_cases hf with ⟨rfl, rfl⟩ | ⟨-, hf⟩
    · exact hgather v hv
    · exact hs.behind hf hv
  · rcases insert_cases hf with ⟨rfl, rfl⟩ | ⟨-, hf⟩
    · rw [live_iff]
      exact ((mem_transfer_iff hnew).1 hv).imp_right fun ⟨hdef, hv⟩ => ⟨hdef, hgather v hv⟩
    · exact hs.before hf hv

/-- The facts of a solution are those of the last state of a run. -/
theorem exists_run_of_solve (hm : p.method m = .ok method)
    {r : Solution Node (ExtTreeSet VarId)} (h : solve p m = .ok r) :
    ∃ limit s, run (analysis p) (ControlFlow.ofMethod method).graph.reverse limit
        (start (analysis p) (ControlFlow.ofMethod method).graph.reverse) = .ok s ∧
      r.inFacts = s.output ∧ r.outFacts = s.input := by
  obtain ⟨c, hc, h⟩ := bind_eq_ok.1 h
  obtain ⟨method', hm', rfl⟩ := Supergraph.of_eq_ok.1 hc
  cases hm.symm.trans hm'
  obtain ⟨s, hrun, h⟩ := bind_eq_ok.1 h
  obtain rfl := pure_eq_ok.1 h
  exact ⟨_, s, hrun, rfl, rfl⟩

/-! ## Nothing is missed -/

section Solved

variable {before behind : ExtTreeMap Node (ExtTreeSet VarId)}
  (hr : Solved (analysis p) (ControlFlow.ofMethod method).graph.reverse behind before)
include hr

theorem mem_of_succ (hnext : next ∈ (ControlFlow.ofMethod method).succs n) {f o : ExtTreeSet VarId}
    (ho : behind[n]? = some o) (hf : before[next]? = some f) (hv : v ∈ f) : v ∈ o := by
  have hexit : n ≠ .exit method.id := by
    rintro rfl
    exact ControlFlow.not_mem_succs_exit hnext
  exact hr.preds (ControlFlow.succs_mem hnext).1 hexit hnext ho hf v hv

/-- What is live at a node is in the fact before it. -/
theorem mem_of_live (hlive : Live p method v n) (hn : n ∈ ControlFlow.nodesOf method)
    {f : ExtTreeSet VarId} (hf : before[n]? = some f) : v ∈ f := by
  obtain ⟨last, hpath, huse⟩ := hlive
  -- The path is followed back from the use to its beginning.
  induction hpath using Relation.ReflTransGen.head_induction_on generalizing f with
  | refl =>
    have hexit : last ≠ .exit method.id := by
      obtain ⟨site, -, rfl, -⟩ := huse
      simp
    obtain ⟨o, f', -, hf', htransfer⟩ := hr.transfer hn hexit
    cases hf.symm.trans hf'
    exact (mem_transfer_iff htransfer).2 (Or.inl huse)
  | @head n next hstep _ ih =>
    obtain ⟨hnext, hdef⟩ := hstep
    have hexit : n ≠ .exit method.id := by
      rintro rfl
      exact ControlFlow.not_mem_succs_exit hnext
    obtain ⟨o, f', ho, hf', htransfer⟩ := hr.transfer hn hexit
    cases hf.symm.trans hf'
    have hmem := (ControlFlow.succs_mem hnext).2.1
    obtain ⟨-, g, -, hg⟩ := hr.exists_facts hmem
    refine (mem_transfer_iff htransfer).2 (Or.inr ⟨hdef, ?_⟩)
    exact mem_of_succ hr hnext ho hg (ih hmem hg)

end Solved

/-- **Live variables are exact.** The live variables of every method are found. The facts before a
node hold the variables that a path from the node leads to, and the facts behind it those that a
path from some successor leads to. -/
theorem mem_iff_live (hp : p.Accepted) (hm : p.method m = .ok method) :
    ∃ r, solve p m = .ok r ∧ ∀ n ∈ ControlFlow.nodesOf method, ∃ before behind,
      r.inFacts[n]? = some before ∧ r.outFacts[n]? = some behind ∧
      ∀ v, (v ∈ before ↔ Live p method v n) ∧
        (v ∈ behind ↔ ∃ next ∈ (ControlFlow.ofMethod method).succs n, Live p method v next) := by
  obtain ⟨r, hr, hsolved⟩ := exists_solve hp hm
  obtain ⟨limit, s, hrun, hin, hout⟩ := exists_run_of_solve hm hr
  have htraced : Traced p method s := run_induction
    (fun {s _ _ rest} hs _ hvisit => Traced.visit (s := { s with agenda := rest })
      ⟨hs.behind, hs.before⟩ hvisit) traced_start hrun
  refine ⟨r, hr, fun n hn => ?_⟩
  obtain ⟨behind, before, hbehind, hbefore⟩ := hsolved.exists_facts hn
  refine ⟨before, behind, hbefore, hbehind, fun v => ⟨⟨fun hv => ?_, fun hlive => ?_⟩,
    ⟨fun hv => ?_, ?_⟩⟩⟩
  · exact htraced.before (hin ▸ hbefore) hv
  · exact mem_of_live hsolved hlive hn hbefore
  · exact htraced.behind (hout ▸ hbehind) hv
  · rintro ⟨next, hnext, hlive⟩
    have hmem := (ControlFlow.succs_mem hnext).2.1
    obtain ⟨-, f, -, hf⟩ := hsolved.exists_facts hmem
    exact mem_of_succ hsolved hnext hbehind hf (mem_of_live hsolved hlive hmem hf)

/-- A loop that counts, and a statement behind the return to which control never comes. -/
def counting : Model where
  classes := #[{ name := "Main" }]
  methods := #[
    { owner := ⟨0⟩, name := "main", subsignature := "void main()", isStatic := true,
      returnType := .void,
      body := #[.literal ⟨0⟩ 0, .literal ⟨1⟩ 1, .binary ⟨0⟩ .add ⟨0⟩ ⟨1⟩, .branch .lt ⟨0⟩ ⟨1⟩ 2,
        .ret none, .copy ⟨2⟩ ⟨0⟩] }]
  vars := #[⟨⟨0⟩, "count", .int⟩, ⟨⟨0⟩, "one", .int⟩, ⟨⟨0⟩, "last", .int⟩]
  entry := ⟨0⟩

/-- In `counting`, both numbers are live behind the branch, since control may go back from there,
and the count is live where control never comes. -/
theorem counting_mem_iff_live :
    (Program.index counting).Accepted ∧
    ∃ r method behind before, (Program.index counting).method ⟨0⟩ = .ok method ∧
      solve (.index counting) ⟨0⟩ = .ok r ∧
      r.outFacts[Node.stmt ⟨⟨0⟩, 3⟩]? = some behind ∧ behind.toList = [⟨0⟩, ⟨1⟩] ∧
      (∀ v, v ∈ behind ↔ ∃ next ∈ (ControlFlow.ofMethod method).succs (.stmt ⟨⟨0⟩, 3⟩),
        Live (.index counting) method v next) ∧
      r.inFacts[Node.stmt ⟨⟨0⟩, 5⟩]? = some before ∧ before.toList = [⟨0⟩] ∧
      ∀ v, v ∈ before ↔ Live (.index counting) method v (.stmt ⟨⟨0⟩, 5⟩) := by
  have hempty : counting.violations = [] := by decide +kernel
  have hp : (Program.index counting).Accepted := ⟨counting, by rw [Program.ofModel, hempty]⟩
  obtain ⟨r, hr, htest⟩ := exists_ok_of_any (solve (.index counting) ⟨0⟩)
    (fun r => r.outFacts[Node.stmt ⟨⟨0⟩, 3⟩]?.any (·.toList = [⟨0⟩, ⟨1⟩]) &&
      r.inFacts[Node.stmt ⟨⟨0⟩, 5⟩]?.any (·.toList = [⟨0⟩])) (by decide +kernel)
  obtain ⟨r', hr', hfacts⟩ := mem_iff_live hp
    (show (Program.index counting).method ⟨0⟩ = .ok _ from rfl)
  cases hr.symm.trans hr'
  obtain ⟨_, behind, _, hbehind, hlive⟩ := hfacts (.stmt ⟨⟨0⟩, 3⟩) (by decide)
  obtain ⟨before, _, hbefore, _, hlive'⟩ := hfacts (.stmt ⟨⟨0⟩, 5⟩) (by decide)
  rw [hbehind, hbefore] at htest
  simp only [Option.any_some, Bool.and_eq_true, decide_eq_true_eq] at htest
  exact ⟨hp, r, _, behind, before, rfl, hr, hbehind, htest.1, fun v => (hlive v).2, hbefore,
    htest.2, fun v => (hlive' v).1⟩

end LiveVariables

end ObjectFlow
