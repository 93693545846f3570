import ObjectFlow.Proofs.Liveness
import ObjectFlow.Proofs.Refinement

/-!
# The equations of constant propagation

What flows into a node ought to be the join of what its predecessors put out. Facts that flow in
accumulate, so this can only fail if a predecessor has put out more before than it does in the end.
A statement does so in one case: it divides a number that may be anything, and its divisor has had
no value at first and is the constant zero in the end. The quotient may have been anything at first,
and there is none in the end (`DividesByZero`). For every variable, what flows into a node is the
join of what the predecessors put out, unless a predecessor divides by zero and assigns the variable
(`joins_or_divides`).

Facts with which no node divides by zero satisfy the equations (`isSolution_of_run`), and they are
the least ones of this kind, whatever the order of the visits (`le_of_run`).
-/

namespace ObjectFlow

open Std

/-! ## What flows in along a run -/

namespace Dataflow

variable {ν φ : Type} [Keyed ν] [SemilatticeSup φ] {a : Analysis ν φ} {g : FlowGraph ν}
  {s s' final : Progress ν φ} {n : ν} {rest : Agenda ν} {limit : Nat}

/-- What holds of two facts if it holds of each holds of what is gathered. -/
theorem gather_induction {P : φ → Prop} (hmeet : ∀ f f', a.meet f f' = f ⊔ f')
    (hsup : ∀ {f f'}, P f → P f' → P (f ⊔ f')) {table : ExtTreeMap ν φ} {start : φ}
    (hstart : P start) (hpreds : ∀ k ∈ g.preds n, ∀ o, table[k]? = some o → P o) :
    P (gather a g table n start) := by
  unfold gather
  generalize g.preds n = preds at hpreds
  induction preds generalizing start with
  | nil => exact hstart
  | cons k ks ih =>
    have hrest : ∀ k ∈ ks, ∀ o, table[k]? = some o → P o := fun k hk =>
      hpreds k (List.mem_cons_of_mem _ hk)
    rw [List.foldl_cons]
    cases hk : table[k]? with
    | none => exact ih hstart hrest
    | some o =>
      refine ih ?_ hrest
      dsimp only
      rw [hmeet]
      exact hsup (hpreds k List.mem_cons_self o hk) hstart

/-- More flows into each node in the second state than in the first. -/
def Grown (s s' : Progress ν φ) : Prop :=
  ∀ ⦃n : ν⦄ ⦃f : φ⦄, s.input[n]? = some f → ∃ f', s'.input[n]? = some f' ∧ f ≤ f'

/-- What flows out of a node is what it started with or what it computes from what flows in. -/
def Computed (a : Analysis ν φ) (g : FlowGraph ν) (s : Progress ν φ) : Prop :=
  ∀ ⦃k : ν⦄ ⦃o : φ⦄, s.output[k]? = some o → k = g.entry ∧ o = a.boundary ∨ o = a.initial ∨
    ∃ f, s.input[k]? = some f ∧ a.transfer k f = .ok o

variable [DecidableEq ν] [DecidableEq φ]

theorem Grown.visit {first : Progress ν φ} (hmeet : ∀ f f', a.meet f f' = f ⊔ f')
    (hs : Grown first s) (hvisit : visit a g n s = .ok s') : Grown first s' := by
  obtain @⟨before, old, new, hb, -, -⟩ := visit_eq_ok.1 hvisit
  intro k f hf
  obtain ⟨f', hf', hle⟩ := hs hf
  by_cases hk : k = n
  · subst hk
    cases hb.symm.trans hf'
    refine ⟨_, ExtTreeMap.getElem?_insert_self, hle.trans ?_⟩
    exact ((gather_le_iff hmeet).1 le_rfl).1
  · exact ⟨f', (getElem?_insert_of_ne hk).trans hf', hle⟩

theorem grown_of_run (hmeet : ∀ f f', a.meet f f' = f ⊔ f') (hrun : run a g limit s = .ok final) :
    Grown s final :=
  run_induction (P := Grown s)
    (fun {t _ _ rest} hs _ hvisit => Grown.visit (s := { t with agenda := rest }) hmeet hs hvisit)
    (fun _ f hf => ⟨f, hf, le_rfl⟩) hrun

omit [SemilatticeSup φ] [DecidableEq φ] in
theorem computed_start : Computed a g (start a g) := by
  intro k o ho
  have ho : (start a g).input[k]? = some o := ho
  rw [getElem?_start] at ho
  split at ho
  · cases ho
    split
    · next hk => exact Or.inl ⟨hk, rfl⟩
    · exact Or.inr (Or.inl rfl)
  · cases ho

omit [SemilatticeSup φ] in
theorem Computed.visit (hs : Computed a g s) (hvisit : visit a g n s = .ok s') :
    Computed a g s' := by
  obtain @⟨before, old, new, -, -, hnew⟩ := visit_eq_ok.1 hvisit
  intro k o ho
  rcases insert_cases ho with ⟨rfl, rfl⟩ | ⟨hk, ho⟩
  · exact Or.inr (Or.inr ⟨_, ExtTreeMap.getElem?_insert_self, hnew⟩)
  · rcases hs ho with hstart | hstart | ⟨f, hf, hfo⟩
    · exact Or.inl hstart
    · exact Or.inr (Or.inl hstart)
    · exact Or.inr (Or.inr ⟨f, (getElem?_insert_of_ne hk).trans hf, hfo⟩)

omit [SemilatticeSup φ] in
theorem run_of_visit (hpop : s.agenda.pop? = some (n, rest))
    (hvisit : visit a g n { s with agenda := rest } = .ok s') (hrun : run a g limit s = .ok final) :
    ∃ limit, run a g limit s' = .ok final := by
  cases limit with
  | zero =>
    unfold run at hrun
    rw [hpop] at hrun
    cases hrun
  | succ limit => exact ⟨limit, (run_succ hpop hvisit limit).symm.trans hrun⟩

/-- What holds of all that the predecessors of a node can put out, as long as no more flows into
them than in the end, holds in the end of what flows into the node. -/
theorem input_of_run {P : φ → Prop} (hmeet : ∀ f f', a.meet f f' = f ⊔ f')
    (hsup : ∀ {f f'}, P f → P f' → P (f ⊔ f'))
    (hrun : run a g limit (start a g) = .ok final) (hne : n ≠ g.entry) (hinitial : P a.initial)
    (hboundary : g.entry ∈ g.preds n → P a.boundary)
    (hpreds : ∀ k ∈ g.preds n, ∀ last f o, final.input[k]? = some last → f ≤ last →
      a.transfer k f = .ok o → P o) {f : φ} (hf : final.input[n]? = some f) : P f := by
  -- Between visits, it holds of what flows in, and the rest of the run leads to the end.
  refine (run_induction (P := fun s => (∀ f, s.input[n]? = some f → P f) ∧ Computed a g s ∧
    ∃ limit, run a g limit s = .ok final) (fun {s s' m rest} hs hpop hvisit => ?_) ?_ hrun).1 f hf
  · obtain ⟨hin, hcomputed, limit, hrest⟩ := hs
    refine ⟨fun f hf => ?_, Computed.visit (s := { s with agenda := rest }) hcomputed hvisit,
      run_of_visit hpop hvisit hrest⟩
    obtain @⟨before, old, new, hb, -, -⟩ := visit_eq_ok.1 hvisit
    rcases insert_cases hf with ⟨rfl, rfl⟩ | ⟨-, hf⟩
    · refine gather_induction hmeet hsup (hin before hb) fun k hk o ho => ?_
      rcases hcomputed ho with ⟨rfl, rfl⟩ | rfl | ⟨f, hf, hfo⟩
      · exact hboundary hk
      · exact hinitial
      · obtain ⟨last, hlast, hle⟩ := grown_of_run hmeet hrest hf
        exact hpreds k hk last f o hlast hle hfo
    · exact hin f hf
  · refine ⟨fun f hf => ?_, computed_start, limit, hrun⟩
    rw [getElem?_start, if_neg hne] at hf
    split at hf
    · cases hf
      exact hinitial
    · cases hf

end Dataflow

/-! ## Divisions by zero -/

/-- An operator knows less when less is known about its operands, unless it divides what may be
anything by zero. -/
theorem BinaryOp.evaluate_le_or (op : BinaryOp) {a b a' b' : Value} (ha : a ≤ a') (hb : b ≤ b') :
    op.evaluate a b ≤ op.evaluate a' b' ∨
      op.evaluate a b = .nac ∧ op.mayFault = true ∧ a' = .nac ∧ b' = .const 0 := by
  cases hop : op.mayFault with
  | false => exact Or.inl (evaluate_mono hop ha hb)
  | true =>
    have hzero : ∀ c : Value, op.evaluate c (.const 0) = .unset := fun c => by
      simp [BinaryOp.evaluate, hop]
    by_cases hb₀ : b = .const 0
    · rw [hb₀, hzero]
      exact Or.inl (Value.unset_le _)
    · by_cases hb₀' : b' = .const 0
      · -- The divisor has had no value before.
        subst hb₀'
        obtain rfl : b = .unset := by
          cases b with
          | unset => rfl
          | nac => cases Value.nac_le.1 hb
          | const n =>
            rcases Value.const_le.1 hb with h | h
            · cases h
            · exact absurd h.symm hb₀
        by_cases ha₀ : a = .nac
        · subst ha₀
          exact Or.inr ⟨by simp [BinaryOp.evaluate], rfl, Value.nac_le.1 ha, rfl⟩
        · have hnone : op.evaluate a .unset = .unset := by cases a <;> simp_all [BinaryOp.evaluate]
          rw [hnone]
          exact Or.inl (Value.unset_le _)
      · exact Or.inl (evaluate_mono_of_result (by simp [hb₀]) (by simp [hb₀']) ha hb)

namespace Constant

open Dataflow

variable {p p' : Program} {m m' : MethodId} {method method' : Method} {s : Stmt} {n k : Node}
  {v : VarId} {fact fact' out out' start : ConstFact}

/-- With this fact, a node divides a number that may be anything by zero. There is no result that
it could assign to the variable. -/
def DividesByZero (p : Program) (n : Node) (fact : ConstFact) (v : VarId) : Prop :=
  ∃ site op left right, n = .stmt site ∧ p.stmt site = .ok (.binary v op left right) ∧
    op.mayFault = true ∧ p.holdsInt v = .ok true ∧ p.holdsInt left = .ok true ∧
    p.holdsInt right = .ok true ∧ fact.get left = .nac ∧ fact.get right = .const 0

/-- With these facts, no node of a method divides a number that may be anything by zero. -/
def NeverDividesByZero (p : Program) (method : Method) (facts : Node → ConstFact) : Prop :=
  ∀ n ∈ ControlFlow.nodesOf method, ∀ v, ¬DividesByZero p n (facts n) v

theorem evaluate_le_or (hle : fact ≤ fact') {x y : Value} (hx : evaluate p s fact = .ok x)
    (hy : evaluate p s fact' = .ok y) :
    x ≤ y ∨ x = .nac ∧ ∃ lhs op left right, s = .binary lhs op left right ∧ op.mayFault = true ∧
      p.holdsInt left = .ok true ∧ p.holdsInt right = .ok true ∧
      fact'.get left = .nac ∧ fact'.get right = .const 0 := by
  cases hs : s.divides with
  | false => exact Or.inl (evaluate_mono hs hle hx hy)
  | true =>
    cases s with
    | binary lhs op left right =>
      obtain ⟨b, hb, hx⟩ := bind_eq_ok.1 hx
      obtain ⟨c, hc, hx⟩ := bind_eq_ok.1 hx
      obtain ⟨b', hb', hy⟩ := bind_eq_ok.1 hy
      obtain ⟨c', hc', hy⟩ := bind_eq_ok.1 hy
      cases hb.symm.trans hb'
      cases hc.symm.trans hc'
      split at hx
      · next hint =>
        rw [if_pos hint] at hy
        cases hx
        cases hy
        obtain ⟨rfl, rfl⟩ := (Bool.and_eq_true _ _).mp hint
        rcases op.evaluate_le_or (hle left) (hle right) with h | ⟨hnac, hop, hleft, hright⟩
        · exact Or.inl h
        · exact Or.inr ⟨hnac, lhs, op, left, right, rfl, hop, hb, hc, hleft, hright⟩
      · next hint =>
        rw [if_neg hint] at hy
        cases hx
        cases hy
        exact Or.inl le_rfl
    | alloc | copy | cast | literal | loadField | storeField | loadArray | storeArray | invoke
    | branch | switch | goto | ret | nop => cases hs

/-- An assignment gives a numeric variable the value, and leaves any other variable as it is. -/
theorem get_of_assign {value : Except Fault Value} (h : assign p s value fact = .ok out)
    (v : VarId) :
    s.defined = some v ∧ p.holdsInt v = .ok true ∧ value = .ok (out.get v) ∨
      ¬(s.defined = some v ∧ p.holdsInt v = .ok true) ∧ out.get v = fact.get v := by
  cases assign_eq_ok.1 h with
  | none hd => exact Or.inr ⟨fun ⟨hd', _⟩ => by simp [hd] at hd', rfl⟩
  | other hd hint =>
    refine Or.inr ⟨fun ⟨hd', hint'⟩ => ?_, rfl⟩
    cases hd.symm.trans hd'
    cases hint.symm.trans hint'
  | @number lhs x hd hint hx =>
    by_cases hv : lhs = v
    · subst hv
      exact Or.inl ⟨hd, hint, by rw [ConstFact.get_update, if_pos rfl, hx]⟩
    · refine Or.inr ⟨fun ⟨hd', _⟩ => hv ?_, by rw [ConstFact.get_update, if_neg hv]⟩
      exact Option.some.inj (hd.symm.trans hd')

/-- A node puts out more when more flows in, unless it divides by zero. -/
theorem transfer_le_or (hle : fact ≤ fact') (h : transfer p n fact = .ok out)
    (h' : transfer p n fact' = .ok out') (v : VarId) :
    out.get v ≤ out'.get v ∨ out.get v = .nac ∧ DividesByZero p n fact' v := by
  cases n with
  | entry | exit =>
    cases h
    cases h'
    exact Or.inl (hle v)
  | stmt site =>
    obtain ⟨s, hst, h⟩ := bind_eq_ok.1 h
    obtain ⟨s', hst', h'⟩ := bind_eq_ok.1 h'
    cases hst.symm.trans hst'
    rcases get_of_assign h v with ⟨hd, hint, hx⟩ | ⟨hnot, hv⟩
    · rcases get_of_assign h' v with ⟨-, -, hy⟩ | ⟨hnot, -⟩
      · rcases evaluate_le_or hle hx hy with hxy | ⟨hnac, lhs, op, left, right, rfl, hrest⟩
        · exact Or.inl hxy
        · cases hd
          obtain ⟨hop, hleft, hright, hvalues⟩ := hrest
          exact Or.inr ⟨hnac, site, op, left, right, rfl, hst, hop, hint, hleft, hright, hvalues⟩
      · exact absurd ⟨hd, hint⟩ hnot
    · rcases get_of_assign h' v with ⟨hd, hint, -⟩ | ⟨-, hv'⟩
      · exact absurd ⟨hd, hint⟩ hnot
      · exact Or.inl (hv ▸ hv' ▸ hle v)

/-! ## Joins -/

/-- The analysis of a method that starts with a fact. -/
abbrev analysisFrom (p : Program) (start : ConstFact) : Analysis Node ConstFact :=
  ⟨.forward, start, ∅, ConstFact.meet, transfer p⟩

section Solution

variable {final : Progress Node ConstFact} {before behind : Node → ConstFact} {limit : Nat}
  (hp : p.Accepted) (hm : p.method m = .ok method)
  (hrun : run (analysisFrom p start) (ControlFlow.ofMethod method).graph limit
    (Dataflow.start (analysisFrom p start) (ControlFlow.ofMethod method).graph) = .ok final)
  (hsolved : Solved (analysisFrom p start) (ControlFlow.ofMethod method).graph final.input
    final.output)
  (hin : Tabulates (ControlFlow.ofMethod method).graph final.input before)
  (hout : Tabulates (ControlFlow.ofMethod method).graph final.output behind)

include hsolved hin hout in
/-- What each node puts out in the end is computed from what flows in. -/
theorem transfer_of_solved (hn : n ∈ ControlFlow.nodesOf method) :
    transfer p n (before n) = .ok (behind n) := by
  by_cases hentry : n = (ControlFlow.ofMethod method).graph.entry
  · subst hentry
    rw [← (hin.1 hsolved.boundary.1).2, ← (hout.1 hsolved.boundary.2).2]
    rfl
  · obtain ⟨f, o, hf, ho, hfo⟩ := hsolved.transfer hn hentry
    obtain ⟨-, rfl⟩ := hin.1 hf
    obtain ⟨-, rfl⟩ := hout.1 ho
    exact hfo

include hrun hsolved hin hout in
/-- **Joins.** For every variable, what flows into a node is the join of what its predecessors put
out, unless it may be anything and a predecessor that assigns the variable divides by zero. -/
theorem joins_or_divides (hn : n ∈ ControlFlow.nodesOf method) (hne : n ≠ .entry method.id)
    (v : VarId) :
    IsLUB {x | ∃ k ∈ (ControlFlow.ofMethod method).preds n, (behind k).get v = x}
        ((before n).get v) ∨
      (before n).get v = .nac ∧
        ∃ k ∈ (ControlFlow.ofMethod method).preds n, DividesByZero p k (before k) v := by
  have hpred : ∀ k ∈ (ControlFlow.ofMethod method).preds n, k ∈ ControlFlow.nodesOf method :=
    fun _ hk => (ControlFlow.linked method).preds_mem hn hk
  have hfound : final.input[n]? = some (before n) := hin.2 ⟨hn, rfl⟩
  by_cases hleast : ∀ x, (∀ k ∈ (ControlFlow.ofMethod method).preds n, (behind k).get v ≤ x) →
      (before n).get v ≤ x
  · refine Or.inl ⟨?_, fun x hx => hleast x fun k hk => hx ⟨k, hk, rfl⟩⟩
    rintro _ ⟨k, hk, rfl⟩
    exact hsolved.preds hn hne hk hfound (hout.2 ⟨hpred k hk, rfl⟩) v
  · -- An upper bound of what the predecessors put out is not above what flows in.
    obtain ⟨x, hleast⟩ := not_forall.1 hleast
    obtain ⟨hx, hnot⟩ := Classical.not_imp.1 hleast
    refine Or.inr ((input_of_run (P := fun f => f.get v ≤ x ∨ f.get v = .nac ∧
      ∃ k ∈ (ControlFlow.ofMethod method).preds n, DividesByZero p k (before k) v)
      (fun _ _ => rfl) ?_ hrun hne ?_ ?_ ?_ hfound).resolve_left hnot)
    · rintro f f' (hf | ⟨hf, hdiv⟩) (hf' | ⟨hf', hdiv'⟩)
      · exact Or.inl (by rw [ConstFact.get_sup]; exact sup_le hf hf')
      · exact Or.inr ⟨by rw [ConstFact.get_sup, hf']; exact Value.meet_nac _, hdiv'⟩
      · exact Or.inr ⟨by rw [ConstFact.get_sup, hf]; exact Value.nac_meet _, hdiv⟩
      · exact Or.inr ⟨by rw [ConstFact.get_sup, hf]; exact Value.nac_meet _, hdiv⟩
    · exact Or.inl (by rw [ConstFact.get_empty]; exact Value.unset_le x)
    · intro hentry
      refine Or.inl ?_
      rw [(hout.1 hsolved.boundary.2).2]
      exact hx _ hentry
    · intro k hk last f o hlast hle hfo
      obtain ⟨-, rfl⟩ := hin.1 hlast
      rcases transfer_le_or hle hfo (transfer_of_solved hsolved hin hout (hpred k hk)) v with
        h | ⟨hnac, hdiv⟩
      · exact Or.inl (h.trans (hx k hk))
      · exact Or.inr ⟨hnac, k, hk, hdiv⟩

include hp hm in
theorem exists_transfer_of_node (hn : n ∈ ControlFlow.nodesOf method) (fact : ConstFact) :
    ∃ out, transfer p n fact = .ok out := by
  rcases ControlFlow.mem_nodesOf.1 hn with rfl | ⟨site, s, hs, rfl⟩ | rfl
  · exact ⟨fact, rfl⟩
  · obtain ⟨-, hst⟩ := (Program.mem_stmts hp hm).1 hs
    obtain ⟨out, hout⟩ := exists_assign_of_value hp hst (exists_evaluate hp hst fact) fact
    exact ⟨out, bind_eq_ok.2 ⟨s, hst, hout⟩⟩
  · exact ⟨fact, rfl⟩

include hrun hsolved hin hout in
/-- Facts with which no node divides by zero satisfy the equations. -/
theorem isSolution_of_run (hnever : NeverDividesByZero p method before) :
    IsSolution (analysisFrom p start) (ControlFlow.ofMethod method).graph before behind where
  boundary := ⟨(hin.1 hsolved.boundary.1).2.symm, (hout.1 hsolved.boundary.2).2.symm⟩
  joins {n} hn hne := by
    have hpred : ∀ k ∈ (ControlFlow.ofMethod method).preds n, k ∈ ControlFlow.nodesOf method :=
      fun _ hk => (ControlFlow.linked method).preds_mem hn hk
    refine ⟨?_, fun f hf v => ?_⟩
    · rintro _ ⟨k, hk, rfl⟩
      exact hsolved.preds hn hne hk (hin.2 ⟨hn, rfl⟩) (hout.2 ⟨hpred k hk, rfl⟩)
    · rcases joins_or_divides hrun hsolved hin hout hn hne v with hlub | ⟨-, k, hk, hzero⟩
      · refine hlub.2 ?_
        rintro _ ⟨k, hk, rfl⟩
        exact hf ⟨k, hk, rfl⟩ v
      · exact absurd hzero (hnever k (hpred k hk) v)
  transfer hn _ := transfer_of_solved hsolved hin hout hn

include hp hm hrun hin hout in
/-- The facts that have been found are below all that satisfy the equations and with which no node
divides by zero. -/
theorem le_of_run {input output : Node → ConstFact}
    (hs : IsSolution (analysisFrom p start) (ControlFlow.ofMethod method).graph input output)
    (hnever : NeverDividesByZero p method input) (hn : n ∈ ControlFlow.nodesOf method) :
    before n ≤ input n ∧ behind n ≤ output n := by
  have hbelow : Below final input output :=
    below_of_run_of_le (a := analysisFrom p start) (ControlFlow.linked method) (fun _ _ => rfl)
      (fun k hk => exists_transfer_of_node hp hm hk) ConstFact.empty_le
      (fun k hk _ _ _ hle ho ho' v =>
        (transfer_le_or hle ho ho' v).resolve_right fun h => hnever k hk v h.2)
      hrun hs.dominates
  exact ⟨hbelow.entering (hin.2 ⟨hn, rfl⟩), hbelow.leaving (hout.2 ⟨hn, rfl⟩)⟩

end Solution

/-- The facts that constant propagation finds are those of the last state of a run. -/
theorem exists_tabulated (hp : p.Accepted) (hm : p.method m = .ok method) :
    ∃ r start limit final before behind, propagate p m = .ok r ∧ boundary p m = .ok start ∧
      run (analysisFrom p start) (ControlFlow.ofMethod method).graph limit
        (Dataflow.start (analysisFrom p start) (ControlFlow.ofMethod method).graph) = .ok final ∧
      Solved (analysisFrom p start) (ControlFlow.ofMethod method).graph final.input final.output ∧
      r.inFacts = final.input ∧ r.outFacts = final.output ∧
      Tabulates (ControlFlow.ofMethod method).graph final.input before ∧
      Tabulates (ControlFlow.ofMethod method).graph final.output behind := by
  obtain ⟨start, r, hstart, hr, hsolved⟩ := exists_propagate hp hm
  obtain ⟨start', limit, final, hstart', hrun, hin, hout⟩ := exists_run_of_propagate hm hr
  cases hstart.symm.trans hstart'
  rw [hin, hout] at hsolved
  obtain ⟨hinNodes, houtNodes⟩ := mem_nodes_of_run hrun
  obtain ⟨before, hbefore⟩ := exists_tabulates ∅ (fun {n} hn => by
    obtain ⟨f, -, hf, -⟩ := hsolved.exists_facts hn
    exact ⟨f, hf⟩) hinNodes
  obtain ⟨behind, hbehind⟩ := exists_tabulates ∅ (fun {n} hn => by
    obtain ⟨-, o, -, ho⟩ := hsolved.exists_facts hn
    exact ⟨o, ho⟩) houtNodes
  exact ⟨r, start, limit, final, before, behind, hr, hstart, hrun, hsolved, hin, hout, hbefore,
    hbehind⟩

end Constant

end ObjectFlow
