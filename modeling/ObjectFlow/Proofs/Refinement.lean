import ObjectFlow.Proofs.LeastSolutions
import ObjectFlow.Proofs.Visits

/-!
# Constant propagation in a program refines that in its methods

Looked at alone, a method is called with any numbers, and calls and loads give it any numbers. In a
program that does not divide, constant propagation never finds more numbers than that at any node
of a reachable method (`propagateProgram_refines`).

What flows out of a node then grows with what flows in, so the facts of the methods, each looked at
alone, are a bound that no visit crosses (`Bounds`), whatever the heap holds at the time. Along a
call edge only numeric parameters get a value, and these are not constant for the callee alone. The
result of a call is not constant for the caller alone, so what arrives along a return edge is below
that. A division does not fit in, since its result is lost when the divisor becomes zero.
-/

namespace ObjectFlow

open Std

/-! ## Bounds -/

namespace Dataflow.Super

variable {σ φ : Type} [SemilatticeSup φ] {a : SuperAnalysis σ φ} {g : Supergraph} {shared : σ}
  {before behind : Node → φ} {s s' first : SuperProgress σ φ} {n : Node} {k : Nat}

/-- Facts that are kept by all that an analysis does: where facts are below these, what flows on is
below these too, whatever the nodes share. -/
structure Bounds (a : SuperAnalysis σ φ) (g : Supergraph) (before behind : Node → φ) : Prop where
  initial : ∀ n, a.initial ≤ before n ∧ a.initial ≤ behind n
  boundary : ∀ {m b}, m ∈ g.entries → a.boundary m = .ok b →
    b ≤ before (.entry m) ∧ b ≤ behind (.entry m)
  along : ∀ {e f f'}, e ∈ g.edges → f ≤ behind e.source → a.along e f = .ok f' →
    f' ≤ before e.target
  transfer : ∀ {h n f o}, n ∈ g.nodes → f ≤ before n → a.transfer h n f = .ok o → o ≤ behind n

/-- What is gathered is not more than the start and what arrives along the edges. -/
theorem gather_le (hmeet : ∀ f f', a.meet f f' = f ⊔ f') {output : ExtTreeMap Node φ}
    {start f most : φ} (hgather : gather a g output n start = .ok f) (hstart : start ≤ most)
    (hedges : ∀ e ∈ g.inEdges n, ∀ o f', output[e.source]? = some o → a.along e o = .ok f' →
      f' ≤ most) : f ≤ most := by
  unfold gather at hgather
  generalize g.inEdges n = edges at hgather hedges
  induction edges generalizing start with
  | nil =>
    cases hgather
    exact hstart
  | cons e edges ih =>
    rw [List.foldlM_cons] at hgather
    obtain ⟨next, hnext, hgather⟩ := bind_eq_ok.1 hgather
    refine ih ?_ hgather fun e he => hedges e (List.mem_cons_of_mem _ he)
    cases ho : output[e.source]? with
    | none =>
      rw [ho] at hnext
      cases hnext
      exact hstart
    | some o =>
      rw [ho] at hnext
      obtain ⟨f', hf', hnext⟩ := bind_eq_ok.1 hnext
      cases hnext
      rw [hmeet]
      exact sup_le (hedges e List.mem_cons_self o f' ho hf') hstart

theorem Bounds.start (hb : Bounds a g before behind) (hstart : start a g shared = .ok s) :
    Below s.toProgress before behind := by
  obtain ⟨hinitial, hout⟩ := initial_of_start hstart
  have hcases : ∀ {n f}, s.input[n]? = some f → f ≤ before n ∧ f ≤ behind n := by
    intro n f hf
    rcases hinitial n f hf with rfl | ⟨m, hm, rfl, hboundary⟩
    · exact hb.initial n
    · exact hb.boundary hm hboundary
  exact ⟨fun hf => (hcases hf).1, fun ho => (hcases (hout ▸ ho)).2⟩

variable [DecidableEq φ]

theorem Bounds.visit (hb : Bounds a g before behind) (hg : g.Coherent)
    (hmeet : ∀ f f', a.meet f f' = f ⊔ f') (hs : Below s.toProgress before behind)
    (hn : n ∈ g.nodes) (hvisit : Super.visit a g n s = .ok s') :
    Below s'.toProgress before behind := by
  obtain @⟨old, _, input, new, _, hold, -, hgather, -, hnew, hin, hout, -⟩ :=
    visited_of_visit hvisit
  have hinput : input ≤ before n :=
    gather_le hmeet hgather (hs.entering hold) fun e he o f' ho hf' => by
      obtain ⟨hedge, rfl⟩ := hg.mem_inEdges.1 he
      exact hb.along hedge (hs.leaving ho) hf'
  refine ⟨fun {m f} hf => ?_, fun {m o} ho => ?_⟩
  · rcases insert_cases (hin ▸ hf) with ⟨rfl, rfl⟩ | ⟨-, hf⟩
    · exact hinput
    · exact hs.entering hf
  · rcases insert_cases (hout ▸ ho) with ⟨rfl, rfl⟩ | ⟨-, ho⟩
    · exact hb.transfer hn hinput hnew
    · exact hs.leaving ho

/-- No visit crosses the bounds. -/
theorem Bounds.visits {Fits : φ → Prop} {height : φ → Nat} {bound : Nat}
    {Fair : σ → ExtTreeMap Node φ → Prop} {weight : σ → Nat} {total : Nat}
    (hb : Bounds a g before behind) (hg : g.Coherent)
    (law : a.Lawful g Fits height bound Fair weight total) (hfirst : Settling a g Fits Fair first)
    (hstart : Super.start a g shared = .ok first) (hs : Visits a g first k s) :
    Below s.toProgress before behind := by
  induction hs with
  | start => exact hb.start hstart
  | @visit k n rest s s' hs hpop hvisit ih =>
    have hn : n ∈ g.nodes :=
      (hs.settling hg law hfirst).1.queued (Agenda.pop?_eq_some hpop ▸ List.mem_cons_self)
    exact hb.visit (s := { s with agenda := rest }) hg law.meet ⟨ih.entering, ih.leaving⟩ hn hvisit

end Dataflow.Super

/-! ## Statements that do not divide -/

/-- Whether a statement divides, or takes the remainder of a division. -/
def Stmt.divides : Stmt → Bool
  | binary _ op _ _ => op.mayFault
  | _ => false

/-- An operator knows less when less is known about its operands, if it has a result. -/
theorem BinaryOp.evaluate_mono_of_result {op : BinaryOp} {a b a' b' : Value}
    (h : (op.mayFault && b = .const 0) = false) (h' : (op.mayFault && b' = .const 0) = false)
    (ha : a ≤ a') (hb : b ≤ b') : op.evaluate a b ≤ op.evaluate a' b' := by
  simp only [BinaryOp.evaluate, h, h', Bool.false_eq_true, if_false]
  clear h h'
  cases a with
  | nac =>
    obtain rfl := Value.nac_le.1 ha
    exact le_rfl
  | const m =>
    rcases Value.const_le.1 ha with rfl | rfl
    · exact Value.le_nac _
    · cases b with
      | nac =>
        obtain rfl := Value.nac_le.1 hb
        exact le_rfl
      | const n =>
        rcases Value.const_le.1 hb with rfl | rfl
        · exact Value.le_nac _
        · exact le_rfl
      | unset => exact Value.unset_le _
  | unset =>
    cases b with
    | nac =>
      obtain rfl := Value.nac_le.1 hb
      cases a' <;> exact le_rfl
    | const n => exact Value.unset_le _
    | unset => exact Value.unset_le _

/-- An operator that always has a result knows less when less is known about its operands. -/
theorem BinaryOp.evaluate_mono {op : BinaryOp} (hop : op.mayFault = false) {a b a' b' : Value}
    (ha : a ≤ a') (hb : b ≤ b') : op.evaluate a b ≤ op.evaluate a' b' :=
  evaluate_mono_of_result (by simp [hop]) (by simp [hop]) ha hb

namespace Constant

open PointsTo Dataflow Dataflow.Super

variable {p : Program} {r : Result} {a : Aliasing} {g : Supergraph} {s : Stmt} {site : StmtId}
  {fact fact' out out' : ConstFact} {m : MethodId} {method : Method} {n next : Node}

theorem evaluate_mono (hs : s.divides = false) (hle : fact ≤ fact') {x y : Value}
    (hx : evaluate p s fact = .ok x) (hy : evaluate p s fact' = .ok y) : x ≤ y := by
  cases s with
  | copy lhs rhs =>
    obtain ⟨b, hb, hx⟩ := bind_eq_ok.1 hx
    obtain ⟨b', hb', hy⟩ := bind_eq_ok.1 hy
    cases hb.symm.trans hb'
    cases hx
    cases hy
    split
    · exact hle rhs
    · exact le_rfl
  | binary lhs op left right =>
    obtain ⟨b, hb, hx⟩ := bind_eq_ok.1 hx
    obtain ⟨c, hc, hx⟩ := bind_eq_ok.1 hx
    obtain ⟨b', hb', hy⟩ := bind_eq_ok.1 hy
    obtain ⟨c', hc', hy⟩ := bind_eq_ok.1 hy
    cases hb.symm.trans hb'
    cases hc.symm.trans hc'
    split at hx
    · next hint =>
      rw [if_pos hint] at hy
      cases hx
      cases hy
      exact BinaryOp.evaluate_mono hs (hle left) (hle right)
    · next hint =>
      rw [if_neg hint] at hy
      cases hx
      cases hy
      exact le_rfl
  | alloc | cast | literal | loadField | storeField | loadArray | storeArray | invoke | branch
  | switch | goto | ret | nop =>
    cases hx
    cases hy
    exact le_rfl

theorem assign_mono {value value' : Except Fault Value} (hle : fact ≤ fact')
    (hvalue : ∀ x y, value = .ok x → value' = .ok y → x ≤ y)
    (h : assign p s value fact = .ok out) (h' : assign p s value' fact' = .ok out') :
    out ≤ out' := by
  unfold assign at h h'
  cases hd : s.defined with
  | none =>
    rw [hd] at h h'
    cases h
    cases h'
    exact hle
  | some lhs =>
    rw [hd] at h h'
    obtain ⟨b, hb, h⟩ := bind_eq_ok.1 h
    obtain ⟨b', hb', h'⟩ := bind_eq_ok.1 h'
    cases hb.symm.trans hb'
    cases b with
    | false =>
      cases h
      cases h'
      exact hle
    | true =>
      obtain ⟨x, hx, h⟩ := bind_eq_ok.1 h
      obtain ⟨y, hy, h'⟩ := bind_eq_ok.1 h'
      cases h
      cases h'
      exact ConstFact.update_le_update hle (hvalue x y hx hy) lhs

/-- A variable that may be anything afterwards leaves the other variables as they are. -/
theorem le_of_assign_nac (h : assign p s (.ok .nac) fact = .ok out) : fact ≤ out := by
  cases assign_eq_ok.1 h with
  | none => exact le_rfl
  | other => exact le_rfl
  | number _ _ hx =>
    cases hx
    exact fact.le_update_nac _

theorem get_of_assign_nac (h : assign p s (.ok .nac) fact = .ok out) {lhs : VarId}
    (hd : s.defined = some lhs) (hint : p.holdsInt lhs = .ok true) : out.get lhs = .nac := by
  cases assign_eq_ok.1 h with
  | none hnone => cases hd.symm.trans hnone
  | other hd' hother =>
    cases hd.symm.trans hd'
    cases hint.symm.trans hother
  | number hd' _ hx =>
    cases hd.symm.trans hd'
    cases hx
    rw [ConstFact.get_update, if_pos rfl]

/-- A method alone takes a load to give any number. -/
theorem evaluate_of_load? {heap : HeapFact} {value : Value} (h : a.load? heap fact s = some value) :
    evaluate p s fact' = .ok .nac := by
  cases s with
  | loadField | loadArray => rfl
  | alloc | copy | cast | literal | binary | storeField | storeArray | invoke | branch | switch
  | goto | ret | nop => cases h

/-- A node passes on no more than it does when its method is looked at alone. -/
theorem transferWithHeap_le {heap : HeapFact}
    (hdiv : ∀ site s, p.stmt site = .ok s → s.divides = false) (hle : fact ≤ fact')
    (h : transferWithHeap p a heap n fact = .ok out) (h' : transfer p n fact' = .ok out') :
    out ≤ out' := by
  cases n with
  | entry | exit =>
    cases h
    cases h'
    exact hle
  | stmt site =>
    obtain ⟨s, hst, h⟩ := bind_eq_ok.1 h
    obtain ⟨s', hst', h'⟩ := bind_eq_ok.1 h'
    cases hst.symm.trans hst'
    split at h
    · next hcall =>
      cases h
      have hnac : evaluate p s fact' = .ok .nac := by
        cases s with
        | invoke => rfl
        | alloc | copy | cast | literal | binary | loadField | storeField | loadArray | storeArray
        | branch | switch | goto | ret | nop => cases hcall
      rw [hnac] at h'
      exact hle.trans (le_of_assign_nac h')
    · refine assign_mono hle (fun x y hx hy => ?_) h h'
      split at hx
      · next hload =>
        rw [evaluate_of_load? hload] at hy
        cases hy
        exact Value.le_nac _
      · exact evaluate_mono (hdiv site s hst) hle hx hy

/-! ## Methods looked at alone -/

/-- What is known before a node when its method is looked at alone. -/
def aloneBefore (p : Program) (n : Node) : ConstFact :=
  match propagate p n.method with
  | .ok r => r.inFacts.getD n ∅
  | .error _ => ∅

/-- What is known behind a node when its method is looked at alone. -/
def aloneBehind (p : Program) (n : Node) : ConstFact :=
  match propagate p n.method with
  | .ok r => r.outFacts.getD n ∅
  | .error _ => ∅

section Alone

variable (hp : p.Accepted) (hm : p.method m = .ok method)
include hp hm

theorem method_of_mem (hn : n ∈ ControlFlow.nodesOf method) : n.method = m :=
  (ControlFlow.method_of_mem_nodesOf hn).trans (Program.id_of_method hp hm)

theorem exists_alone : ∃ start r, boundary p m = .ok start ∧ propagate p m = .ok r ∧
    Solved ⟨.forward, start, ∅, ConstFact.meet, transfer p⟩ (ControlFlow.ofMethod method).graph
      r.inFacts r.outFacts ∧
    ∀ n ∈ ControlFlow.nodesOf method, r.inFacts[n]? = some (aloneBefore p n) ∧
      r.outFacts[n]? = some (aloneBehind p n) := by
  obtain ⟨start, r, hstart, hr, hsolved⟩ := exists_propagate hp hm
  refine ⟨start, r, hstart, hr, hsolved, fun n hn => ?_⟩
  obtain ⟨f, o, hf, ho⟩ := hsolved.exists_facts hn
  simp only [aloneBefore, aloneBehind, method_of_mem hp hm hn, hr,
    ExtTreeMap.getD_eq_getD_getElem?, hf, ho, Option.getD_some, and_self]

theorem alone_entry : ∃ start, boundary p m = .ok start ∧ aloneBefore p (.entry m) = start ∧
    aloneBehind p (.entry m) = start := by
  obtain ⟨start, r, hstart, -, hsolved, halone⟩ := exists_alone hp hm
  have hid := Program.id_of_method hp hm
  obtain ⟨hin, hout⟩ := halone (.entry m) (ControlFlow.mem_nodesOf.2 (Or.inl (by rw [hid])))
  have hb := hsolved.boundary
  rw [show (ControlFlow.ofMethod method).graph.entry = .entry m from congrArg Node.entry hid] at hb
  exact ⟨start, hstart, Option.some.inj (hin.symm.trans hb.1),
    Option.some.inj (hout.symm.trans hb.2)⟩

theorem alone_transfer (hn : n ∈ ControlFlow.nodesOf method) :
    transfer p n (aloneBefore p n) = .ok (aloneBehind p n) := by
  by_cases hentry : n = .entry method.id
  · rw [Program.id_of_method hp hm] at hentry
    obtain ⟨start, -, hbefore, hbehind⟩ := alone_entry hp hm
    rw [hentry, hbefore, hbehind]
    rfl
  · obtain ⟨start, r, -, -, hsolved, halone⟩ := exists_alone hp hm
    obtain ⟨f, o, hf, ho, htransfer⟩ := hsolved.transfer hn hentry
    obtain ⟨hin, hout⟩ := halone n hn
    cases hin.symm.trans hf
    cases hout.symm.trans ho
    exact htransfer

theorem alone_flow (hnext : next ∈ (ControlFlow.ofMethod method).succs n) :
    aloneBehind p n ≤ aloneBefore p next := by
  obtain ⟨hn, hmem, hentry⟩ := ControlFlow.succs_mem hnext
  obtain ⟨start, r, -, -, hsolved, halone⟩ := exists_alone hp hm
  exact hsolved.preds hmem hentry ((ControlFlow.coherent method).mem_preds.2 hnext)
    (halone next hmem).1 (halone n hn).2

/-- A method alone takes its calls to give any number. -/
theorem alone_result {call : Invoke} {lhs : VarId} (hst : p.stmt site = .ok (.invoke call))
    (hres : call.result = some lhs) (hint : p.holdsInt lhs = .ok true)
    (hnext : next ∈ (ControlFlow.ofMethod method).succs (.stmt site)) :
    (aloneBefore p next).get lhs = .nac := by
  have hn := (ControlFlow.succs_mem hnext).1
  obtain ⟨s, hst', hassign⟩ := bind_eq_ok.1 (alone_transfer hp hm hn)
  cases hst.symm.trans hst'
  have hbehind := get_of_assign_nac hassign hres hint
  exact Value.nac_le.1 (hbehind ▸ alone_flow hp hm hnext lhs)

/-- What a callee starts with is below what it starts with alone. -/
theorem enterCallee_le {call : Invoke} (h : enterCallee p call m fact = .ok out) :
    out ≤ aloneBefore p (.entry m) := by
  obtain ⟨start, hstart, hbefore, -⟩ := alone_entry hp hm
  obtain ⟨start', hstart', -, hnac⟩ := exists_boundary hp hm
  cases hstart.symm.trans hstart'
  obtain ⟨f, hf, -, hparams⟩ : ∃ f, enterCallee p call m fact = .ok f ∧ _ :=
    exists_enterCallee hp hm
  cases h.symm.trans hf
  intro v
  rw [hbefore]
  by_cases hset : out.get v = .unset
  · rw [hset]
    exact Value.unset_le _
  · obtain ⟨hv, hint⟩ := hparams v hset
    rw [hnac v hv hint]
    exact Value.le_nac _

end Alone

/-- The result of a call is below what the caller knows alone. -/
theorem leaveCallee_le (hp : p.Accepted) (hm : p.method m = .ok method) {call : Invoke}
    {callee : MethodId} (hst : p.stmt site = .ok (.invoke call))
    (hnext : next ∈ (ControlFlow.ofMethod method).succs (.stmt site))
    (h : leaveCallee p call callee fact = .ok out) : out ≤ aloneBefore p next := by
  unfold leaveCallee at h
  cases hres : call.result with
  | none =>
    rw [hres] at h
    cases h
    exact ConstFact.empty_le _
  | some lhs =>
    rw [hres] at h
    obtain ⟨b, hb, h⟩ := bind_eq_ok.1 h
    cases b with
    | false =>
      cases h
      exact ConstFact.empty_le _
    | true =>
      obtain ⟨callee', -, h⟩ := bind_eq_ok.1 h
      cases h
      intro v
      rw [ConstFact.get_update]
      split
      · next hv =>
        rw [← hv, alone_result hp hm hst hres hb hnext]
        exact Value.le_nac _
      · rw [ConstFact.get_empty]
        exact Value.unset_le _

/-- No edge of a method carries more than the methods know alone. -/
theorem along_le (hp : p.Accepted) (hr : r.Coherent p) (hm : p.method m = .ok method)
    {e : SuperEdge} (he : Supergraph.Joins p r.plainCalls method e)
    (hle : fact ≤ aloneBehind p e.source) (h : along p e fact = .ok out) :
    out ≤ aloneBefore p e.target := by
  cases he with
  | normal hnext =>
    cases h
    exact hle.trans (alone_flow hp hm hnext)
  | callToReturn hst hnext =>
    cases h.symm.trans (along_callToReturn hst _)
    refine LE.le.trans ?_ (hle.trans (alone_flow hp hm hnext))
    split
    · exact fact.remove_le _
    · exact le_rfl
  | call _ hst hcallee =>
    obtain ⟨callee', hcallee'⟩ := hr.methods (hr.callees hcallee)
    rw [along_call hst] at h
    exact enterCallee_le hp hcallee' h
  | ret hst hcallee hnext =>
    rw [along_ret hst] at h
    exact leaveCallee_le hp hm hst hnext h

/-- The facts of the methods alone are bounds for the facts of the program. -/
theorem bounds_alone (hp : p.Accepted) (hr : r.Coherent p)
    (hg : Supergraph.Spans p r.plainCalls g)
    (hdiv : ∀ site s, p.stmt site = .ok s → s.divides = false) :
    Bounds (superAnalysis p a) g (aloneBefore p) (aloneBehind p) where
  initial n := ⟨ConstFact.empty_le _, ConstFact.empty_le _⟩
  boundary {m b} hm hb := by
    rw [hg.entries, hr.entries] at hm
    obtain rfl := List.mem_singleton.1 hm
    obtain ⟨method, hmethod⟩ := Program.exists_entry hp
    obtain ⟨start, hstart, hbefore, hbehind⟩ := alone_entry hp hmethod
    cases hb.symm.trans hstart
    exact ⟨hbefore.ge, hbehind.ge⟩
  along he hle h := by
    obtain ⟨m, -, method, hm, hjoin⟩ := hg.edges.1 he
    exact along_le hp hr hm hjoin hle h
  transfer hn hle h := by
    obtain ⟨m, -, method, hm, hn⟩ := hg.nodes.1 hn
    exact transferWithHeap_le hdiv hle h (alone_transfer hp hm hn)

/-! ## Precision -/

/-- **Precision.** Constant propagation in a program that does not divide finds, at each node of a
reachable method, facts that are below those of constant propagation in the method. -/
theorem propagateProgram_refines (hp : p.Accepted) (hr : r.IsOutcome p)
    (hdiv : ∀ d ∈ p.model.methods, ∀ s ∈ d.body, s.divides = false) :
    ∃ sol, propagateProgram p r = .ok sol ∧ ∀ m ∈ r.plainCalls.reachable.toList,
      ∃ method alone, p.method m = .ok method ∧ propagate p m = .ok alone ∧
        ∀ n ∈ ControlFlow.nodesOf method, ∃ f o f' o',
          sol.inFacts[n]? = some f ∧ sol.outFacts[n]? = some o ∧
          alone.inFacts[n]? = some f' ∧ alone.outFacts[n]? = some o' ∧ f ≤ f' ∧ o ≤ o' := by
  have hcoherent := hr.coherent hp
  obtain ⟨a, g, first, final, hc, ha, hg, hfirst, hfinal, -⟩ := exists_course hp hcoherent
  have hgraph := hg.coherent hp hcoherent
  obtain ⟨k, hvisits⟩ := Visits.start.run hc.run
  have hstmt : ∀ site s, p.stmt site = .ok s → s.divides = false := fun site s hst => by
    obtain ⟨method, hmethod, hs⟩ := Program.stmt_eq_ok.1 hst
    obtain ⟨d, hd, rfl⟩ := (Program.method_eq_ok hp).1 hmethod
    exact hdiv d (Array.mem_of_getElem? hd) s (Array.mem_of_getElem? hs)
  have hbelow := (bounds_alone hp hcoherent hg hstmt).visits hgraph
    (superLawful hp hcoherent ha hg) hfirst hc.start hvisits
  refine ⟨_, hc.propagateProgram_eq, fun m hm => ?_⟩
  obtain ⟨method, hmethod⟩ := hcoherent.methods hm
  obtain ⟨-, alone, -, halone, -, hfacts⟩ := exists_alone hp hmethod
  refine ⟨method, alone, hmethod, halone, fun n hn => ?_⟩
  obtain ⟨⟨f, hf⟩, o, ho⟩ := hfinal.found (hg.nodes.2 ⟨m, hm, method, hmethod, hn⟩)
  exact ⟨f, o, _, _, hf, ho, (hfacts n hn).1, (hfacts n hn).2, hbelow.entering hf,
    hbelow.leaving ho⟩

/-- In `keeping`, the method `keep` is passed the number one, which it cannot know alone. -/
theorem keeping_propagateProgram_refines :
    (Program.index Computation.keeping).Accepted ∧
    (∀ d ∈ Computation.keeping.methods, ∀ s ∈ d.body, s.divides = false) ∧
    ∃ r : Result, r.IsOutcome (.index Computation.keeping) ∧
      (⟨1⟩ : MethodId) ∈ r.plainCalls.reachable.toList ∧
      ∃ sol alone f f', propagateProgram (.index Computation.keeping) r = .ok sol ∧
        propagate (.index Computation.keeping) ⟨1⟩ = .ok alone ∧
        sol.inFacts[Node.stmt ⟨⟨1⟩, 0⟩]? = some f ∧ alone.inFacts[Node.stmt ⟨⟨1⟩, 0⟩]? = some f' ∧
        f ≤ f' ∧ f.get ⟨4⟩ = .const 1 ∧ f'.get ⟨4⟩ = .nac := by
  have hdiv : ∀ d ∈ Computation.keeping.methods, ∀ s ∈ d.body, s.divides = false := by decide
  obtain ⟨r, hr, htest⟩ := exists_ok_of_any
    (analyze (.index Computation.keeping) { sensitivity := .object 1, discipline := .lifo } 100)
    (fun r => decide (⟨1⟩ ∈ r.plainCalls.reachable.toList) &&
      (propagateProgram (.index Computation.keeping) r).toOption.any fun sol =>
        sol.inFacts[Node.stmt ⟨⟨1⟩, 0⟩]?.any fun f => f.get ⟨4⟩ = .const 1) (by decide +kernel)
  simp only [Bool.and_eq_true, decide_eq_true_eq] at htest
  obtain ⟨hreach, htest⟩ := htest
  obtain ⟨sol, hsol, hone⟩ := exists_ok_of_any _ _ htest
  obtain ⟨alone, halone, hany⟩ := exists_ok_of_any
    (propagate (.index Computation.keeping) ⟨1⟩)
    (fun alone => alone.inFacts[Node.stmt ⟨⟨1⟩, 0⟩]?.any fun f => f.get ⟨4⟩ = .nac)
    (by decide +kernel)
  obtain ⟨sol', hsol', hrefines⟩ :=
    propagateProgram_refines Computation.keeping_accepted (Result.isOutcome_of_analyze hr) hdiv
  cases hsol.symm.trans hsol'
  obtain ⟨method, alone', hmethod, halone', hnodes⟩ := hrefines ⟨1⟩ hreach
  cases halone.symm.trans halone'
  have hn : Node.stmt ⟨⟨1⟩, 0⟩ ∈ ControlFlow.nodesOf method := by
    cases hmethod
    decide
  obtain ⟨f, -, f', -, hf, -, hf', -, hle, -⟩ := hnodes _ hn
  rw [hf] at hone
  rw [hf'] at hany
  exact ⟨Computation.keeping_accepted, hdiv, r, Result.isOutcome_of_analyze hr, hreach, sol, alone,
    f, f', hsol, halone, hf, hf', hle, by simpa using hone, by simpa using hany⟩

end Constant

end ObjectFlow
