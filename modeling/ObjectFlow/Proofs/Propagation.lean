import ObjectFlow.Constant.Propagation
import ObjectFlow.Proofs.Arithmetic
import ObjectFlow.Proofs.Facts
import ObjectFlow.Proofs.Graphs
import ObjectFlow.Proofs.Runs

/-!
# Constant propagation in a method is sound

A run of a method goes along its control flow graph and assigns numbers to its numeric variables
(`Arrives`). Literals, copies and operators compute what they compute on a real machine; calls, the
heap, casts and operands of other types may yield any number. A run stops where it divides by zero
or needs a variable that has not been assigned.

Constant propagation finds facts for every method, and wherever a run is, each variable holds a
number that the fact there admits (`propagate_admits`). The fact of a variable may shrink when a
divisor turns out to be zero, so facts behind nodes are not monotone in those before. All that is
used is that facts before nodes are above the facts behind their predecessors.
-/

namespace ObjectFlow

open Std

namespace Program

variable {p : Program} {m : MethodId} {v : VarId}

theorem Declares.holdsInt (h : p.Declares m v) : ∃ b, p.holdsInt v = .ok b := by
  obtain ⟨d, hd, -⟩ := h
  exact ⟨d.ty.holdsInt, bind_eq_ok.2 ⟨d, hd, rfl⟩⟩

theorem Declares.index_lt (h : p.Declares m v) : v.index < p.model.vars.size := by
  obtain ⟨d, hd, -⟩ := h
  exact (Array.getElem?_eq_some_iff.1 (orUnknown_eq_ok.1 hd)).1

theorem declares_defined (hp : p.Accepted) {site : StmtId} {s : Stmt} (h : p.stmt site = .ok s)
    (hv : s.defined = some v) : p.Declares site.method v :=
  declares_of_stmt hp h (List.mem_append_left _ (by simp [hv]))

theorem declares_used (hp : p.Accepted) {site : StmtId} {s : Stmt} (h : p.stmt site = .ok s)
    (hv : v ∈ s.used) : p.Declares site.method v :=
  declares_of_stmt hp h (List.mem_append_right _ hv)

end Program

namespace Constant

/-! ## Numbers of a run -/

/-- The numbers that numeric variables hold, if they have been assigned. -/
abbrev Numbers := VarId → Option Int32

/-- A fact admits all the numbers that variables hold. -/
def Agrees (fact : ConstFact) (numbers : Numbers) : Prop :=
  ∀ v x, numbers v = some x → (fact.get v).Admits x

/-- The numbers that a statement may assign to a numeric variable. -/
inductive Yields (p : Program) (numbers : Numbers) : Stmt → Int32 → Prop
  | literal (lhs : VarId) (x : Int32) : Yields p numbers (.literal lhs x) x
  | copy {lhs rhs : VarId} {x : Int32} : p.holdsInt rhs = .ok true → numbers rhs = some x →
      Yields p numbers (.copy lhs rhs) x
  | binary {lhs left right : VarId} {op : BinaryOp} {a b x : Int32} :
      p.holdsInt left = .ok true → p.holdsInt right = .ok true → numbers left = some a →
      numbers right = some b → op.result? a b = some x →
      Yields p numbers (.binary lhs op left right) x
  /-- Operands of other types may become any number. -/
  | copyOther {lhs rhs : VarId} (x : Int32) : p.holdsInt rhs = .ok false →
      Yields p numbers (.copy lhs rhs) x
  | binaryOther {lhs left right : VarId} {op : BinaryOp} (x : Int32) :
      p.holdsInt left = .ok false ∨ p.holdsInt right = .ok false →
      Yields p numbers (.binary lhs op left right) x
  | alloc (lhs : VarId) (ty : Ty) (x : Int32) : Yields p numbers (.alloc lhs ty) x
  | cast (lhs rhs : VarId) (ty : Ty) (x : Int32) : Yields p numbers (.cast lhs rhs ty) x
  | loadField (lhs : VarId) (access : FieldAccess) (x : Int32) :
      Yields p numbers (.loadField lhs access) x
  | loadArray (lhs base index : VarId) (x : Int32) : Yields p numbers (.loadArray lhs base index) x
  | invoke (call : Invoke) (x : Int32) : Yields p numbers (.invoke call) x

/-- What a statement may do to the numeric variables. -/
inductive Computes (p : Program) (s : Stmt) (numbers : Numbers) : Numbers → Prop
  | none : s.defined = none → Computes p s numbers numbers
  | other {lhs : VarId} : s.defined = some lhs → p.holdsInt lhs = .ok false →
      Computes p s numbers numbers
  | number {lhs : VarId} {x : Int32} : s.defined = some lhs → p.holdsInt lhs = .ok true →
      Yields p numbers s x → Computes p s numbers (Function.update numbers lhs (some x))

/-- A place in a run: before or behind a node. -/
inductive Point
  | before (n : Node)
  | behind (n : Node)

/-- The node at which a point is. -/
def Point.node : Point → Node
  | before n | behind n => n

/-- The fact of a solution at a point. -/
def factAt (r : Solution Node ConstFact) : Point → Option ConstFact
  | .before n => r.inFacts[n]?
  | .behind n => r.outFacts[n]?

/-- The runs of a method that come to a point with certain numbers. Parameters start with any
numbers, and from a node control may go on to any of its successors. -/
inductive Arrives (p : Program) (m : Method) : Point → Numbers → Prop
  | start {numbers : Numbers} :
      (∀ v x, numbers v = some x → v ∈ m.decl.params ∧ p.holdsInt v = .ok true) →
      Arrives p m (.before (.entry m.id)) numbers
  | mark {n : Node} {numbers : Numbers} : Arrives p m (.before n) numbers →
      (∀ site, n ≠ .stmt site) → Arrives p m (.behind n) numbers
  | execute {site : StmtId} {s : Stmt} {numbers numbers' : Numbers} :
      Arrives p m (.before (.stmt site)) numbers → p.stmt site = .ok s →
      Computes p s numbers numbers' → Arrives p m (.behind (.stmt site)) numbers'
  | flow {n next : Node} {numbers : Numbers} : Arrives p m (.behind n) numbers →
      next ∈ (ControlFlow.ofMethod m).succs n → Arrives p m (.before next) numbers

variable {p : Program} {fact fact' out : ConstFact} {numbers numbers' : Numbers} {s : Stmt}
  {site : StmtId} {m : MethodId} {method : Method}

theorem Agrees.mono (h : Agrees fact numbers) (hle : fact ≤ fact') : Agrees fact' numbers :=
  fun v x hv => (h v x hv).mono (hle v)

theorem Agrees.update (h : Agrees fact numbers) {lhs : VarId} {value : Value} {x : Int32}
    (hx : value.Admits x) :
    Agrees (fact.update lhs value) (Function.update numbers lhs (some x)) := by
  intro v y hv
  rw [ConstFact.get_update]
  by_cases hvl : v = lhs
  · subst hvl
    rw [Function.update_self] at hv
    cases hv
    rwa [if_pos rfl]
  · rw [Function.update_of_ne hvl] at hv
    rw [if_neg (Ne.symm hvl)]
    exact h v y hv

/-! ## Evaluation -/

/-- An operator on values admits what it yields on numbers that the values admit. A divisor that is
known to be zero admits no other number, and then there is no result. -/
theorem evaluate_admits_binary {op : BinaryOp} {left right : Value} {a b x : Int32}
    (ha : left.Admits a) (hb : right.Admits b) (hx : op.result? a b = some x) :
    (op.evaluate left right).Admits x := by
  rw [BinaryOp.result?_eq] at hx
  unfold BinaryOp.evaluate
  by_cases hzero : (op.mayFault && right = .const 0) = true
  · exfalso
    simp only [Bool.and_eq_true, decide_eq_true_eq] at hzero
    obtain ⟨hop, rfl⟩ := hzero
    obtain rfl : b = 0 := by
      rcases hb with hb | hb
      · cases hb
      · exact (Value.const.inj hb).symm
    simp [hop] at hx
  · rw [if_neg hzero]
    split at hx
    · cases hx
    · cases hx
      rcases ha with rfl | rfl <;> rcases hb with rfl | rfl
      · exact Value.admits_nac _
      · exact Value.admits_nac _
      · exact Value.admits_nac _
      · exact Value.admits_const _

theorem evaluate_admits {value : Value} {x : Int32} (hv : evaluate p s fact = .ok value)
    (h : Agrees fact numbers) (hx : Yields p numbers s x) : value.Admits x := by
  cases hx with
  | literal lhs => cases hv; exact Value.admits_const x
  | copy hint hrhs =>
    obtain ⟨b, hb, hv⟩ := bind_eq_ok.1 hv
    rw [hint] at hb
    cases hb
    cases hv
    exact h _ _ hrhs
  | binary hl hr ha hb hx =>
    obtain ⟨b, hl', hv⟩ := bind_eq_ok.1 hv
    rw [hl] at hl'
    cases hl'
    obtain ⟨b, hr', hv⟩ := bind_eq_ok.1 hv
    rw [hr] at hr'
    cases hr'
    cases hv
    exact evaluate_admits_binary (h _ _ ha) (h _ _ hb) hx
  | copyOther _ hother =>
    obtain ⟨b, hb, hv⟩ := bind_eq_ok.1 hv
    rw [hother] at hb
    cases hb
    cases hv
    exact Value.admits_nac x
  | binaryOther _ hother =>
    obtain ⟨b, hl, hv⟩ := bind_eq_ok.1 hv
    obtain ⟨c, hr, hv⟩ := bind_eq_ok.1 hv
    have hbc : (b && c) = false := by
      rcases hother with h | h
      · rw [h] at hl
        cases hl
        rfl
      · rw [h] at hr
        cases hr
        exact Bool.and_false b
    rw [if_neg (by simp [hbc])] at hv
    cases hv
    exact Value.admits_nac x
  | alloc | cast | loadField | loadArray | invoke => cases hv; exact Value.admits_nac x

theorem exists_evaluate (hp : p.Accepted) (hst : p.stmt site = .ok s) (fact : ConstFact) :
    ∃ value, evaluate p s fact = .ok value := by
  have hint := fun v (hv : v ∈ s.used) => (Program.declares_used hp hst hv).holdsInt
  cases s with
  | copy lhs rhs =>
    obtain ⟨b, hb⟩ := hint rhs (by simp [Stmt.used])
    exact ⟨_, bind_eq_ok.2 ⟨b, hb, rfl⟩⟩
  | binary lhs op left right =>
    obtain ⟨b, hb⟩ := hint left (by simp [Stmt.used])
    obtain ⟨c, hc⟩ := hint right (by simp [Stmt.used])
    refine ⟨if b && c then op.evaluate (fact.get left) (fact.get right) else .nac,
      bind_eq_ok.2 ⟨b, hb, bind_eq_ok.2 ⟨c, hc, ?_⟩⟩⟩
    split <;> rfl
  | alloc | cast | literal | loadField | storeField | loadArray | storeArray | invoke | branch
  | switch | goto | ret | nop => exact ⟨_, rfl⟩

/-! ## Assignments -/

/-- What an assignment does to a fact. -/
inductive Assigned (p : Program) (s : Stmt) (value : Except Fault Value) (fact : ConstFact) :
    ConstFact → Prop
  | none : s.defined = none → Assigned p s value fact fact
  | other {lhs : VarId} : s.defined = some lhs → p.holdsInt lhs = .ok false →
      Assigned p s value fact fact
  | number {lhs : VarId} {x : Value} : s.defined = some lhs → p.holdsInt lhs = .ok true →
      value = .ok x → Assigned p s value fact (fact.update lhs x)

theorem assign_eq_ok {value : Except Fault Value} :
    assign p s value fact = .ok out ↔ Assigned p s value fact out := by
  unfold assign
  constructor
  · intro h
    split at h
    · next hd =>
      cases h
      exact .none hd
    · next lhs hd =>
      obtain ⟨b, hb, h⟩ := bind_eq_ok.1 h
      cases b with
      | false =>
        cases h
        exact .other hd hb
      | true =>
        obtain ⟨x, hx, h⟩ := bind_eq_ok.1 h
        cases h
        exact .number hd hb hx
  · intro h
    cases h with
    | none hd => rw [hd]
    | other hd hb =>
      rw [hd]
      exact bind_eq_ok.2 ⟨false, hb, rfl⟩
    | number hd hb hx =>
      rw [hd]
      exact bind_eq_ok.2 ⟨true, hb, bind_eq_ok.2 ⟨_, hx, rfl⟩⟩

theorem exists_assign_of_value (hp : p.Accepted) (hst : p.stmt site = .ok s)
    {value : Except Fault Value} (hv : ∃ x, value = .ok x) (fact : ConstFact) :
    ∃ out, assign p s value fact = .ok out := by
  simp only [assign_eq_ok]
  cases hd : s.defined with
  | none => exact ⟨_, .none hd⟩
  | some lhs =>
    obtain ⟨b, hb⟩ := (Program.declares_defined hp hst hd).holdsInt
    cases b with
    | false => exact ⟨_, .other hd hb⟩
    | true =>
      obtain ⟨x, hx⟩ := hv
      exact ⟨_, .number hd hb hx⟩

theorem exists_assign (hp : p.Accepted) (hst : p.stmt site = .ok s) {value : Except Fault Value}
    (hv : ∃ x, value = .ok x) (hf : fact.Within p.model.vars.size) :
    ∃ out, assign p s value fact = .ok out ∧ out.Within p.model.vars.size := by
  obtain ⟨out, hout⟩ := exists_assign_of_value hp hst hv fact
  refine ⟨out, hout, ?_⟩
  cases assign_eq_ok.1 hout with
  | none | other => exact hf
  | number hd => exact hf.update (Program.declares_defined hp hst hd).index_lt _

/-- A statement keeps facts and numbers in agreement. -/
theorem Agrees.computes (h : Agrees fact numbers) (hc : Computes p s numbers numbers')
    {value : Except Fault Value} (ha : assign p s value fact = .ok out)
    (hv : ∀ x y, value = .ok x → Yields p numbers s y → x.Admits y) : Agrees out numbers' := by
  cases assign_eq_ok.1 ha with
  | none hd =>
    cases hc with
    | none => exact h
    | other hd' => simp [hd] at hd'
    | number hd' => simp [hd] at hd'
  | other hd hint =>
    cases hc with
    | none => exact h
    | other => exact h
    | number hd' hint' =>
      rw [hd] at hd'
      cases hd'
      rw [hint] at hint'
      cases hint'
  | number hd hint hx =>
    cases hc with
    | none hd' => simp [hd] at hd'
    | other hd' hint' =>
      rw [hd] at hd'
      cases hd'
      rw [hint] at hint'
      cases hint'
    | number hd' _ hy =>
      rw [hd] at hd'
      cases hd'
      exact h.update (hv _ _ hx hy)

/-! ## The entry -/

/-- Numeric parameters may be anything at the entry. -/
theorem exists_boundary (hp : p.Accepted) (hm : p.method m = .ok method) :
    ∃ f, boundary p m = .ok f ∧ f.Within p.model.vars.size ∧
      ∀ v ∈ method.decl.params, p.holdsInt v = .ok true → f.get v = .nac := by
  have hdecl : ∀ v ∈ method.decl.params, p.Declares m v := fun v hv =>
    Program.declares_of_method hp hm (List.mem_append_left _ hv)
  obtain ⟨f, hf, hwithin, -, hparams⟩ := exists_foldlM
    (f := fun (fact : ConstFact) v => do
      return if ← p.holdsInt v then fact.update v .nac else fact)
    (fun rest (f : ConstFact) => f.Within p.model.vars.size ∧ (∀ v ∈ rest, p.Declares m v) ∧
      ∀ v ∈ method.decl.params, p.holdsInt v = .ok true → v ∈ rest ∨ f.get v = .nac)
    (fun {w rest f} ⟨hf, hrest, hparams⟩ => by
      have hw := hrest w List.mem_cons_self
      obtain ⟨b, hb⟩ := hw.holdsInt
      refine ⟨_, bind_eq_ok.2 ⟨b, hb, rfl⟩, ?_, fun v hv => hrest v (List.mem_cons_of_mem _ hv),
        fun v hv hint => ?_⟩
      · split
        · exact hf.update hw.index_lt _
        · exact hf
      · -- Once a parameter has become `nac`, it stays so.
        rcases hparams v hv hint with hmem | hnac
        · rcases List.mem_cons.1 hmem with rfl | hmem
          · rw [hint] at hb
            cases hb
            exact Or.inr (by simp [ConstFact.get_update])
          · exact Or.inl hmem
        · right
          split
          · simp [ConstFact.get_update, hnac]
          · exact hnac)
    ⟨ConstFact.within_empty, hdecl, fun v hv _ => Or.inl hv⟩
  exact ⟨f, bind_eq_ok.2 ⟨method, hm, hf⟩, hwithin, fun v hv hint => by
    simpa using hparams v hv hint⟩

/-! ## Solutions -/

theorem exists_transfer (hp : p.Accepted) (hm : p.method m = .ok method) {n : Node}
    (hn : n ∈ ControlFlow.nodesOf method) (hf : fact.Within p.model.vars.size) :
    ∃ out, transfer p n fact = .ok out ∧ out.Within p.model.vars.size := by
  rcases ControlFlow.mem_nodesOf.1 hn with rfl | ⟨site, s, hs, rfl⟩ | rfl
  · exact ⟨fact, rfl, hf⟩
  · obtain ⟨-, hst⟩ := (Program.mem_stmts hp hm).1 hs
    obtain ⟨out, hout, hwithin⟩ := exists_assign hp hst (exists_evaluate hp hst fact) hf
    exact ⟨out, bind_eq_ok.2 ⟨s, hst, hout⟩, hwithin⟩
  · exact ⟨fact, rfl, hf⟩

theorem lawful (hp : p.Accepted) (hm : p.method m = .ok method) {start : ConstFact}
    (hstart : start.Within p.model.vars.size) :
    Analysis.Lawful (⟨.forward, start, ∅, ConstFact.meet, transfer p⟩ : Analysis Node ConstFact)
      (ControlFlow.ofMethod method).graph (ConstFact.Within p.model.vars.size)
      (ConstFact.height p.model.vars.size) (2 * p.model.vars.size) where
  meet _ _ := rfl
  boundary := hstart
  initial := ConstFact.within_empty
  sup := .sup
  transfer := exists_transfer hp hm
  height_lt _ hg h := ConstFact.height_lt hg h
  height_le _ := ConstFact.height_le ..

/-- Constant propagation succeeds, and its facts solve the equations of the analysis. -/
theorem exists_propagate (hp : p.Accepted) (hm : p.method m = .ok method) :
    ∃ start r, boundary p m = .ok start ∧ propagate p m = .ok r ∧
      Dataflow.Solved ⟨.forward, start, ∅, ConstFact.meet, transfer p⟩
        (ControlFlow.ofMethod method).graph r.inFacts r.outFacts := by
  obtain ⟨start, hstart, hwithin, -⟩ := exists_boundary hp hm
  obtain ⟨r, hr, hsolved⟩ := Dataflow.exists_solve
    (a := ⟨.forward, start, ∅, ConstFact.meet, transfer p⟩)
    (g := (ControlFlow.ofMethod method).graph) (ControlFlow.coherent method)
    (lawful hp hm hwithin)
  refine ⟨start, r, hstart, ?_, hsolved⟩
  refine bind_eq_ok.2 ⟨ControlFlow.ofMethod method, bind_eq_ok.2 ⟨method, hm, rfl⟩, ?_⟩
  exact bind_eq_ok.2 ⟨_, bind_eq_ok.2 ⟨start, hstart, rfl⟩, hr⟩

/-- What constant propagation finds is where its visits lead. -/
theorem exists_run_of_propagate (hm : p.method m = .ok method)
    {sol : Solution Node ConstFact} (hsol : propagate p m = .ok sol) :
    ∃ start limit s, boundary p m = .ok start ∧
      Dataflow.run ⟨.forward, start, ∅, ConstFact.meet, transfer p⟩
        (ControlFlow.ofMethod method).graph limit
        (Dataflow.start ⟨.forward, start, ∅, ConstFact.meet, transfer p⟩
          (ControlFlow.ofMethod method).graph) = .ok s ∧
      sol.inFacts = s.input ∧ sol.outFacts = s.output := by
  obtain ⟨c, hc, h⟩ := bind_eq_ok.1 hsol
  obtain ⟨method', hm', rfl⟩ := Supergraph.of_eq_ok.1 hc
  cases hm.symm.trans hm'
  obtain ⟨analysis, hanalysis, h⟩ := bind_eq_ok.1 h
  obtain ⟨start, hstart, hanalysis⟩ := bind_eq_ok.1 hanalysis
  cases hanalysis
  obtain ⟨s, hrun, h⟩ := bind_eq_ok.1 h
  cases h
  exact ⟨start, _, s, hstart, hrun, rfl, rfl⟩

/-! ## Soundness -/

/-- Along a run, the facts of a solution agree with the numbers. -/
theorem Arrives.agrees {start : ConstFact} (hstart : boundary p m = .ok start) (hp : p.Accepted)
    (hm : p.method m = .ok method) {r : Solution Node ConstFact}
    (hr : Dataflow.Solved ⟨.forward, start, ∅, ConstFact.meet, transfer p⟩
      (ControlFlow.ofMethod method).graph r.inFacts r.outFacts)
    {point : Point} (h : Arrives p method point numbers) :
    point.node ∈ ControlFlow.nodesOf method ∧
      ∃ fact, factAt r point = some fact ∧ Agrees fact numbers := by
  induction h with
  | start hparams =>
    refine ⟨ControlFlow.mem_nodesOf.2 (Or.inl rfl), start, hr.boundary.1, fun v x hv => ?_⟩
    obtain ⟨start', hstart', -, hnac⟩ := exists_boundary hp hm
    rw [hstart] at hstart'
    cases hstart'
    obtain ⟨hmem, hint⟩ := hparams v x hv
    exact Or.inl (hnac v hmem hint)
  | @mark n numbers _ hn ih =>
    obtain ⟨hmem, fact, hfact, hagrees⟩ := ih
    refine ⟨hmem, fact, ?_, hagrees⟩
    by_cases hentry : n = .entry method.id
    · subst hentry
      exact hr.boundary.2.trans (hr.boundary.1.symm.trans hfact)
    · obtain ⟨f, o, hf, ho, htransfer⟩ := hr.transfer hmem hentry
      obtain rfl := Option.some.inj (hf.symm.trans hfact)
      cases n with
      | stmt site => exact absurd rfl (hn site)
      | entry _ | exit _ => cases htransfer; exact ho
  | @execute site s numbers numbers' _ hst hcomputes ih =>
    obtain ⟨hmem, fact, hfact, hagrees⟩ := ih
    obtain ⟨f, o, hf, ho, htransfer⟩ := hr.transfer hmem fun h => by cases h
    obtain rfl := Option.some.inj (hf.symm.trans hfact)
    obtain ⟨s', hst', hassign⟩ := bind_eq_ok.1 htransfer
    rw [hst] at hst'
    cases hst'
    exact ⟨hmem, o, ho, hagrees.computes hcomputes hassign fun x y hx hy =>
      evaluate_admits hx hagrees hy⟩
  | @flow n next numbers _ hnext ih =>
    obtain ⟨-, fact, hfact, hagrees⟩ := ih
    obtain ⟨-, hmem, hentry⟩ := ControlFlow.succs_mem hnext
    obtain ⟨f, o, hf, -, -⟩ := hr.transfer hmem hentry
    have hpred := (ControlFlow.coherent method).mem_preds.2 hnext
    exact ⟨hmem, f, hf, hagrees.mono (hr.preds hmem hentry hpred hf hfact)⟩

/-- **Soundness in a method.** Constant propagation finds facts for every method of an accepted
program, and wherever a run of the method is, each variable that has been assigned a number is not
constant or that very number according to the fact there. -/
theorem propagate_admits (hp : p.Accepted) (hm : p.method m = .ok method) :
    ∃ r, propagate p m = .ok r ∧ ∀ point numbers, Arrives p method point numbers →
      ∃ fact, factAt r point = some fact ∧
        ∀ v x, numbers v = some x → fact.get v = .nac ∨ fact.get v = .const x := by
  obtain ⟨start, r, hstart, hr, hsolved⟩ := exists_propagate hp hm
  exact ⟨r, hr, fun point numbers h => (h.agrees hstart hp hm hsolved).2⟩

/-- A program that calls a method for a number, doubles the number and divides by it. -/
def doubling : Model where
  classes := #[{ name := "Main" }]
  methods := #[
    { owner := ⟨0⟩, name := "main", subsignature := "void main()", isStatic := true,
      returnType := .void,
      body := #[.literal ⟨0⟩ 1, .invoke ⟨.static, some ⟨0⟩, none, ⟨⟨0⟩, "int two()"⟩, []⟩,
        .binary ⟨1⟩ .add ⟨0⟩ ⟨0⟩, .binary ⟨1⟩ .div ⟨1⟩ ⟨0⟩] },
    { owner := ⟨0⟩, name := "two", subsignature := "int two()", isStatic := true,
      returnType := .int, body := #[.literal ⟨2⟩ 2, .ret (some ⟨2⟩)] }]
  vars := #[⟨⟨0⟩, "number", .int⟩, ⟨⟨0⟩, "twice", .int⟩, ⟨⟨1⟩, "result", .int⟩]
  entry := ⟨0⟩

theorem doubling_accepted : (Program.index doubling).Accepted := by
  have h : doubling.violations = [] := by decide +kernel
  exact ⟨doubling, by rw [Program.ofModel, h]⟩

/-- A run of `main` in which the call has yielded 7 and the number has been doubled. -/
theorem doubling_arrives :
    Arrives (.index doubling) (doubling.indexedMethod ⟨0⟩ doubling.methods[0])
      (.behind (.stmt ⟨⟨0⟩, 2⟩))
      (Function.update (Function.update (Function.update (fun _ => none) ⟨0⟩ (some 1)) ⟨0⟩ (some 7))
        ⟨1⟩ (some 14)) := by
  have h₀ : Arrives (.index doubling) (doubling.indexedMethod ⟨0⟩ doubling.methods[0])
      (.before (.stmt ⟨⟨0⟩, 0⟩)) fun _ => none :=
    .flow (.mark (.start fun _ _ h => by cases h) fun _ h => by cases h) (by decide +kernel)
  have h₁ := Arrives.flow (.execute h₀ rfl (.number rfl rfl (.literal ⟨0⟩ 1)))
    (show Node.stmt ⟨⟨0⟩, 1⟩ ∈ _ by decide +kernel)
  have h₂ := Arrives.flow (.execute h₁ rfl (.number rfl rfl (.invoke _ 7)))
    (show Node.stmt ⟨⟨0⟩, 2⟩ ∈ _ by decide +kernel)
  exact .execute h₂ rfl (.number rfl rfl (.binary rfl rfl rfl rfl (by decide +kernel)))

theorem doubling_propagate_admits :
    ∃ r, propagate (.index doubling) ⟨0⟩ = .ok r ∧
      ∃ fact, factAt r (.behind (.stmt ⟨⟨0⟩, 2⟩)) = some fact ∧
        (fact.get ⟨1⟩ = .nac ∨ fact.get ⟨1⟩ = .const 14) := by
  obtain ⟨r, hr, h⟩ := propagate_admits doubling_accepted
    (show (Program.index doubling).method ⟨0⟩ = .ok _ from rfl)
  obtain ⟨fact, hfact, hadmits⟩ := h _ _ doubling_arrives
  exact ⟨r, hr, fact, hfact, hadmits ⟨1⟩ 14 rfl⟩

end Constant

end ObjectFlow
