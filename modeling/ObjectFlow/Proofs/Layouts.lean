import Mathlib.Data.Set.Function
import ObjectFlow.Proofs.Equations

/-!
# The order of the statements in a method

The same flow of control can be laid out in a body in many ways, with jumps that go elsewhere
(`Relaid`). Nodes are visited in the order of the body at first. Layouts have the same equations, so
this makes no difference to constant propagation as long as no node divides a number that may be
anything by zero (`propagate_joins`). Otherwise it may make a difference: what flows into a node is
more than what its predecessors put out, or is not, depending on whether a divisor is known to be
zero after or before the quotient has been looked at (`loop_order_matters`).
-/

namespace ObjectFlow

namespace Constant

open Dataflow ControlFlow

variable {p p' : Program} {m m' : MethodId} {method method' : Method} {n k : Node} {s : Stmt}
  {v : VarId} {fact start : ConstFact} {place : Node → Node}

/-! ## Layouts -/

/-- A method is laid out in another way: its nodes have other places, control goes from place to
place as it did, and the statements are the same ones but for those that only say where control
goes. -/
structure Relaid (p p' : Program) (method method' : Method) (place : Node → Node) : Prop where
  holdsInt : ∀ v, p'.holdsInt v = p.holdsInt v
  params : method'.decl.params = method.decl.params
  entry : place (.entry method.id) = .entry method'.id
  exit : place (.exit method.id) = .exit method'.id
  stmts : ∀ x ∈ method.stmts, ∃ y ∈ method'.stmts, place (.stmt x.1) = .stmt y.1 ∧
    (y.2 = x.2 ∨ y.2.defined = none ∧ x.2.defined = none)
  distinct : ∀ n ∈ nodesOf method, ∀ k ∈ nodesOf method, place n = place k → n = k
  covers : ∀ n' ∈ nodesOf method', ∃ n ∈ nodesOf method, place n = n'
  succs : ∀ n ∈ nodesOf method, ∀ k ∈ nodesOf method,
    (place k ∈ (ofMethod method').succs (place n) ↔ k ∈ (ofMethod method).succs n)

namespace Relaid

theorem place_mem (h : Relaid p p' method method' place) (hn : n ∈ nodesOf method) :
    place n ∈ nodesOf method' := by
  rcases mem_nodesOf.1 hn with rfl | ⟨site, s, hs, rfl⟩ | rfl
  · exact mem_nodesOf.2 (Or.inl h.entry)
  · obtain ⟨y, hy, hplace, -⟩ := h.stmts _ hs
    exact mem_nodesOf.2 (Or.inr (Or.inl ⟨y.1, y.2, hy, hplace⟩))
  · exact mem_nodesOf.2 (Or.inr (Or.inr h.exit))

theorem mem_preds (h : Relaid p p' method method' place) (hn : n ∈ nodesOf method) {k' : Node} :
    k' ∈ (ofMethod method').preds (place n) ↔
      ∃ k ∈ (ofMethod method).preds n, place k = k' := by
  constructor
  · intro hk'
    have hk' := (coherent method').mem_preds.1 hk'
    obtain ⟨k, hk, rfl⟩ := h.covers k' (succs_mem hk').1
    exact ⟨k, (coherent method).mem_preds.2 ((h.succs k hk n hn).1 hk'), rfl⟩
  · rintro ⟨k, hk, rfl⟩
    have hk := (coherent method).mem_preds.1 hk
    exact (coherent method').mem_preds.2 ((h.succs k (succs_mem hk).1 n hn).2 hk)

/-- A method that has been moved can be moved back. -/
theorem exists_back (h : Relaid p p' method method' place) :
    ∃ back, Relaid p' p method' method back ∧ ∀ n ∈ nodesOf method, back (place n) = n := by
  let back := Function.invFunOn place {n | n ∈ nodesOf method}
  have hback : ∀ n' ∈ nodesOf method', back n' ∈ nodesOf method ∧ place (back n') = n' :=
    fun n' hn' => Function.invFunOn_pos (h.covers n' hn')
  have hplace : ∀ n ∈ nodesOf method, back (place n) = n := fun n hn =>
    h.distinct _ (hback _ (h.place_mem hn)).1 n hn (hback _ (h.place_mem hn)).2
  have hentry : Node.entry method.id ∈ nodesOf method := mem_nodesOf.2 (Or.inl rfl)
  have hexit : Node.exit method.id ∈ nodesOf method := mem_nodesOf.2 (Or.inr (Or.inr rfl))
  refine ⟨back, ⟨fun v => (h.holdsInt v).symm, h.params.symm, h.entry ▸ hplace _ hentry,
    h.exit ▸ hplace _ hexit, fun y hy => ?_, fun n hn k hk heq => ?_, fun n hn => ?_,
    fun n hn k hk => ?_⟩, hplace⟩
  · obtain ⟨site', t⟩ := y
    obtain ⟨n, hn, hnt⟩ := h.covers (.stmt site') (mem_nodesOf.2 (Or.inr (Or.inl ⟨_, t, hy, rfl⟩)))
    rcases mem_nodesOf.1 hn with rfl | ⟨site, s, hs, rfl⟩ | rfl
    · cases hnt.symm.trans h.entry
    · obtain ⟨⟨_, u⟩, hu, huplace, hsame⟩ := h.stmts _ hs
      cases hnt.symm.trans huplace
      obtain rfl : t = u := Option.some.inj
        ((Model.mem_stmts.1 hy).2.symm.trans (Model.mem_stmts.1 hu).2)
      exact ⟨(site, s), hs, hnt ▸ hplace _ hn, hsame.imp Eq.symm And.symm⟩
    · cases hnt.symm.trans h.exit
  · rw [← (hback n hn).2, ← (hback k hk).2, heq]
  · exact ⟨place n, h.place_mem hn, hplace n hn⟩
  · rw [← h.succs _ (hback n hn).1 _ (hback k hk).1, (hback n hn).2, (hback k hk).2]

/-! ## Layouts have the same equations -/

theorem assign_eq (h : Relaid p p' method method' place) (value : Except Fault Value) :
    assign p' s value fact = assign p s value fact := by
  simp only [assign, h.holdsInt]

theorem evaluate_eq (h : Relaid p p' method method' place) :
    evaluate p' s fact = evaluate p s fact := by
  cases s with
  | copy | binary => simp only [evaluate, read, h.holdsInt]
  | alloc | cast | literal | loadField | storeField | loadArray | storeArray | invoke | branch
  | switch | goto | ret | nop => rfl

section Accepted

variable (hp : p.Accepted) (hm : p.method m = .ok method) (hp' : p'.Accepted)
  (hm' : p'.method m' = .ok method')
include hp hm hp' hm'

theorem transfer_eq (h : Relaid p p' method method' place) (hn : n ∈ nodesOf method) :
    transfer p' (place n) fact = transfer p n fact := by
  rcases mem_nodesOf.1 hn with rfl | ⟨site, s, hs, rfl⟩ | rfl
  · rw [h.entry]
    rfl
  · obtain ⟨⟨site', s'⟩, hy, hplace, hsame⟩ := h.stmts _ hs
    obtain ⟨-, hst⟩ := (Program.mem_stmts hp hm).1 hs
    obtain ⟨-, hst'⟩ := (Program.mem_stmts hp' hm').1 hy
    rw [hplace]
    simp only [transfer, hst, hst', bind, Except.bind]
    rcases hsame with rfl | ⟨hd', hd⟩
    · rw [h.assign_eq, h.evaluate_eq]
    · simp only [assign, hd', hd]
  · rw [h.exit]
    rfl

omit hp hp' in
theorem boundary_eq (h : Relaid p p' method method' place) : boundary p' m' = boundary p m := by
  simp only [boundary, hm, hm', bind, Except.bind, h.params, h.holdsInt]

/-- Facts that satisfy the equations of a layout do so when they are moved back. -/
theorem isSolution (h : Relaid p p' method method' place) {input output : Node → ConstFact}
    (hs : IsSolution (analysisFrom p' start) (ofMethod method').graph input output) :
    IsSolution (analysisFrom p start) (ofMethod method).graph (input ∘ place)
      (output ∘ place) := by
  have hentry : ∀ {n}, n ∈ nodesOf method → n ≠ .entry method.id →
      place n ≠ .entry method'.id := by
    intro n hn hne heq
    exact hne (h.distinct n hn _ (mem_nodesOf.2 (Or.inl rfl)) (heq.trans h.entry.symm))
  refine ⟨?_, fun {n} hn hne => ?_, fun {n} hn hne => ?_⟩
  · show input (place (.entry method.id)) = start ∧ output (place (.entry method.id)) = start
    rw [h.entry]
    exact hs.boundary
  · have hpreds : {o | ∃ k ∈ (ofMethod method').preds (place n), output k = o} =
        {o | ∃ k ∈ (ofMethod method).preds n, output (place k) = o} := by
      ext o
      simp only [Set.mem_ofPred_eq, h.mem_preds hn, exists_exists_and_eq_and]
    have hjoins := hs.joins (h.place_mem hn) (hentry hn hne)
    exact hpreds ▸ hjoins
  · exact (h.transfer_eq hp hm hp' hm' hn).symm.trans
      (hs.transfer (h.place_mem hn) (hentry hn hne))

theorem dividesByZero (h : Relaid p p' method method' place) (hn : n ∈ nodesOf method)
    (hdiv : DividesByZero p n fact v) : DividesByZero p' (place n) fact v := by
  obtain ⟨site, op, left, right, rfl, hst, hop, hrest⟩ := hdiv
  have hsite : site.method = m := method_of_mem hp hm hn
  obtain ⟨y, hy, hplace, hsame | ⟨-, hd⟩⟩ := h.stmts _ ((Program.mem_stmts hp hm).2 ⟨hsite, hst⟩)
  · obtain ⟨-, hst'⟩ := (Program.mem_stmts hp' hm').1 hy
    refine ⟨y.1, op, left, right, hplace, hst'.trans (congrArg _ hsame), hop, ?_⟩
    rw [h.holdsInt, h.holdsInt, h.holdsInt]
    exact hrest
  · cases hd

/-- The facts that are found in a method are below those that satisfy the equations of a layout and
with which no node divides by zero. -/
theorem le_of_run (h : Relaid p p' method method' place) {limit : Nat}
    {final : Progress Node ConstFact} {before behind before' behind' : Node → ConstFact}
    (hrun : run (analysisFrom p start) (ofMethod method).graph limit
      (Dataflow.start (analysisFrom p start) (ofMethod method).graph) = .ok final)
    (hin : Tabulates (ofMethod method).graph final.input before)
    (hout : Tabulates (ofMethod method).graph final.output behind)
    (hs : IsSolution (analysisFrom p' start) (ofMethod method').graph before' behind')
    (hnever : NeverDividesByZero p' method' before') (hn : n ∈ nodesOf method) :
    before n ≤ before' (place n) ∧ behind n ≤ behind' (place n) :=
  Constant.le_of_run hp hm hrun hin hout (h.isSolution hp hm hp' hm' hs)
    (fun _ hk v hdiv => hnever _ (h.place_mem hk) v (h.dividesByZero hp hm hp' hm' hk hdiv)) hn

end Accepted

end Relaid

/-! ## The equations -/

/-- **The equations.** Constant propagation has facts at the nodes of every method, and what a node
puts out is computed from what flows in. Apart from the entry, what flows into a node is the join of
what its predecessors put out, variable by variable, unless it may be anything and a predecessor
that assigns the variable divides by zero. If no node divides by zero, the facts satisfy the
equations. They are below all others of this kind, and every layout of the method has the same
facts, unless a node divides by zero in that layout. -/
theorem propagate_joins (hp : p.Accepted) (hm : p.method m = .ok method) :
    ∃ r start before behind, propagate p m = .ok r ∧ boundary p m = .ok start ∧
      Tabulates (ofMethod method).graph r.inFacts before ∧
      Tabulates (ofMethod method).graph r.outFacts behind ∧
      (∀ n ∈ nodesOf method, transfer p n (before n) = .ok (behind n)) ∧
      (∀ n ∈ nodesOf method, n ≠ .entry m → ∀ v,
        IsLUB {x | ∃ k ∈ (ofMethod method).preds n, (behind k).get v = x} ((before n).get v) ∨
        (before n).get v = .nac ∧
          ∃ k ∈ (ofMethod method).preds n, DividesByZero p k (before k) v) ∧
      (∀ input output, IsSolution (analysisFrom p start) (ofMethod method).graph input output →
        NeverDividesByZero p method input →
        ∀ n ∈ nodesOf method, before n ≤ input n ∧ behind n ≤ output n) ∧
      (NeverDividesByZero p method before →
        IsSolution (analysisFrom p start) (ofMethod method).graph before behind ∧
        ∀ p' m' method' place, p'.Accepted → p'.method m' = .ok method' →
          Relaid p p' method method' place → ∃ r' before' behind', propagate p' m' = .ok r' ∧
            Tabulates (ofMethod method').graph r'.inFacts before' ∧
            Tabulates (ofMethod method').graph r'.outFacts behind' ∧
            (NeverDividesByZero p' method' before' →
              ∀ n ∈ nodesOf method, before' (place n) = before n ∧
                behind' (place n) = behind n)) := by
  obtain ⟨r, start, limit, final, before, behind, hr, hstart, hrun, hsolved, hin, hout, hbefore,
    hbehind⟩ := exists_tabulated hp hm
  refine ⟨r, start, before, behind, hr, hstart, hin ▸ hbefore, hout ▸ hbehind,
    fun n hn => transfer_of_solved hsolved hbefore hbehind hn, fun n hn hne v => ?_,
    fun input output hs hnever n hn => le_of_run hp hm hrun hbefore hbehind hs hnever hn,
    fun hnever => ?_⟩
  · rw [← Program.id_of_method hp hm] at hne
    exact joins_or_divides hrun hsolved hbefore hbehind hn hne v
  · have hs := isSolution_of_run hrun hsolved hbefore hbehind hnever
    refine ⟨hs, fun p' m' method' place hp' hm' hrelaid => ?_⟩
    obtain ⟨r', start', limit', final', before', behind', hr', hstart', hrun', hsolved', hin',
      hout', hbefore', hbehind'⟩ := exists_tabulated hp' hm'
    cases hstart'.symm.trans ((hrelaid.boundary_eq hm hm').trans hstart)
    refine ⟨r', before', behind', hr', hin' ▸ hbefore', hout' ▸ hbehind', fun hnever' n hn => ?_⟩
    have hs' := isSolution_of_run hrun' hsolved' hbefore' hbehind' hnever'
    obtain ⟨back, hback, hplace⟩ := hrelaid.exists_back
    obtain ⟨hle, hleOut⟩ :=
      hrelaid.le_of_run hp hm hp' hm' hrun hbefore hbehind hs' hnever' hn
    obtain ⟨hge, hgeOut⟩ :=
      hback.le_of_run hp' hm' hp hm hrun' hbefore' hbehind' hs hnever (hrelaid.place_mem hn)
    rw [hplace n hn] at hge hgeOut
    exact ⟨hge.antisymm hle, hgeOut.antisymm hleOut⟩

/-! ## A loop in two layouts -/

/-- A method that is given a number. -/
def mainWith (body : Array Stmt) : MethodDecl where
  owner := ⟨0⟩
  name := "main"
  subsignature := "void main(int)"
  isStatic := true
  params := [⟨0⟩]
  returnType := .void
  body := body

/-- A program that consists of such a method. -/
def running (body : Array Stmt) : Model where
  classes := #[{ name := "Main" }]
  methods := #[mainWith body]
  vars := #[⟨⟨0⟩, "number", .int⟩, ⟨⟨0⟩, "other", .int⟩, ⟨⟨0⟩, "result", .int⟩]
  entry := ⟨0⟩

/-- A loop that divides a number by another one and then sets that other number. -/
def loop (divisor : Int32) : Array Stmt :=
  #[.goto 1, .binary ⟨2⟩ .div ⟨0⟩ ⟨1⟩, .goto 3, .literal ⟨1⟩ divisor, .branch .eq ⟨0⟩ ⟨0⟩ 1,
    .ret none]

/-- The loop with its second half in front. -/
def turnedLoop (divisor : Int32) : Array Stmt :=
  #[.goto 4, .literal ⟨1⟩ divisor, .branch .eq ⟨0⟩ ⟨0⟩ 4, .ret none, .binary ⟨2⟩ .div ⟨0⟩ ⟨1⟩,
    .goto 1]

/-- Where the nodes of the loop are in the other layout. -/
def turned : Node → Node
  | .stmt site => .stmt ⟨site.method, [0, 4, 5, 1, 2, 3].getD site.index site.index⟩
  | n => n

/-- The method of a program that runs a body. -/
def mainOf (body : Array Stmt) : Method := (running body).indexedMethod ⟨0⟩ (mainWith body)

theorem running_accepted {d : Int32} (h : d = 0 ∨ d = 2) :
    (Program.index (running (loop d))).Accepted ∧
      (Program.index (running (turnedLoop d))).Accepted := by
  have hempty : (running (loop d)).violations = [] ∧ (running (turnedLoop d)).violations = [] := by
    rcases h with rfl | rfl
    · decide +kernel
    · decide +kernel
  exact ⟨⟨running (loop d), by rw [Program.ofModel, hempty.1]⟩,
    ⟨running (turnedLoop d), by rw [Program.ofModel, hempty.2]⟩⟩

theorem relaid_turned {d : Int32} (h : d = 0 ∨ d = 2) :
    Relaid (.index (running (loop d))) (.index (running (turnedLoop d)))
      (mainOf (loop d)) (mainOf (turnedLoop d)) turned := by
  refine ⟨fun _ => rfl, rfl, rfl, rfl, ?_, ?_, ?_, ?_⟩
  all_goals
    rcases h with rfl | rfl
    · decide +kernel
    · decide +kernel

/-- If no operand of a division is found to be the constant zero, no node divides by zero. -/
theorem neverDividesByZero_of_operands (hp : p.Accepted) (hm : p.method m = .ok method)
    {r : Solution Node ConstFact} {before : Node → ConstFact} (hr : propagate p m = .ok r)
    (hbefore : Tabulates (ofMethod method).graph r.inFacts before)
    (htest : (propagate p m).toOption.any (fun r => decide (∀ x ∈ method.stmts,
      x.2.divides = true → ∀ u ∈ x.2.used,
        r.inFacts[Node.stmt x.1]?.map (fun fact => fact.get u) ≠ some (.const 0))) = true) :
    NeverDividesByZero p method before := by
  rintro n hn v ⟨site, op, left, right, rfl, hst, hop, -, -, -, -, hzero⟩
  have hsite : site.method = m := method_of_mem hp hm hn
  rw [hr] at htest
  refine of_decide_eq_true htest _ ((Program.mem_stmts hp hm).2 ⟨hsite, hst⟩) hop right
    (by simp [Stmt.used]) ?_
  rw [hbefore.2 ⟨hn, rfl⟩, Option.map_some, hzero]

/-- In the loop that divides by two, the facts are the same in both layouts. -/
theorem loop_propagate_joins :
    (Program.index (running (loop 2))).Accepted ∧
    (Program.index (running (turnedLoop 2))).Accepted ∧
    Relaid (.index (running (loop 2))) (.index (running (turnedLoop 2)))
      (mainOf (loop 2)) (mainOf (turnedLoop 2)) turned ∧
    ∃ r r' start before behind before' behind',
      propagate (.index (running (loop 2))) ⟨0⟩ = .ok r ∧
      propagate (.index (running (turnedLoop 2))) ⟨0⟩ = .ok r' ∧
      Tabulates (ofMethod (mainOf (loop 2))).graph r.inFacts before ∧
      Tabulates (ofMethod (mainOf (loop 2))).graph r.outFacts behind ∧
      Tabulates (ofMethod (mainOf (turnedLoop 2))).graph r'.inFacts before' ∧
      Tabulates (ofMethod (mainOf (turnedLoop 2))).graph r'.outFacts behind' ∧
      NeverDividesByZero (.index (running (loop 2))) (mainOf (loop 2)) before ∧
      NeverDividesByZero (.index (running (turnedLoop 2))) (mainOf (turnedLoop 2)) before' ∧
      IsSolution (analysisFrom (.index (running (loop 2))) start)
        (ofMethod (mainOf (loop 2))).graph before behind ∧
      ∀ n ∈ nodesOf (mainOf (loop 2)), before' (turned n) = before n ∧
        behind' (turned n) = behind n := by
  obtain ⟨hp, hp'⟩ := running_accepted (Or.inr rfl)
  have hrelaid := relaid_turned (d := 2) (Or.inr rfl)
  obtain ⟨r, start, before, behind, hr, -, hbefore, hbehind, -, -, -, hrest⟩ :=
    propagate_joins hp
    (show (Program.index (running (loop 2))).method ⟨0⟩ = .ok (mainOf (loop 2)) from rfl)
  have hnever : NeverDividesByZero (.index (running (loop 2))) (mainOf (loop 2)) before :=
    neverDividesByZero_of_operands hp rfl hr hbefore (by decide +kernel)
  obtain ⟨hs, hlayouts⟩ := hrest hnever
  obtain ⟨r', before', behind', hr', hbefore', hbehind', heq⟩ :=
    hlayouts _ ⟨0⟩ _ _ hp' rfl hrelaid
  have hnever' := neverDividesByZero_of_operands hp' rfl hr' hbefore' (by decide +kernel)
  exact ⟨hp, hp', hrelaid, r, r', start, before, behind, before', behind', hr, hr', hbefore,
    hbehind, hbefore', hbehind', hnever, hnever', hs, heq hnever'⟩

/-- **Order matters.** In the loop that divides by zero, the quotient may be anything when control
goes on from the division, although the division is the only predecessor and puts out no quotient in
the end. In the other layout there is no quotient. -/
theorem loop_order_matters :
    (Program.index (running (loop 0))).Accepted ∧
    (Program.index (running (turnedLoop 0))).Accepted ∧
    Relaid (.index (running (loop 0))) (.index (running (turnedLoop 0)))
      (mainOf (loop 0)) (mainOf (turnedLoop 0)) turned ∧
    (ofMethod (mainOf (loop 0))).preds (.stmt ⟨⟨0⟩, 2⟩) = [.stmt ⟨⟨0⟩, 1⟩] ∧
    ∃ r r' fact out fact', propagate (.index (running (loop 0))) ⟨0⟩ = .ok r ∧
      propagate (.index (running (turnedLoop 0))) ⟨0⟩ = .ok r' ∧
      r.inFacts[Node.stmt ⟨⟨0⟩, 2⟩]? = some fact ∧ r.outFacts[Node.stmt ⟨⟨0⟩, 1⟩]? = some out ∧
      r'.inFacts[turned (.stmt ⟨⟨0⟩, 2⟩)]? = some fact' ∧
      fact.get ⟨2⟩ = .nac ∧ out.get ⟨2⟩ = .unset ∧ fact'.get ⟨2⟩ = .unset := by
  obtain ⟨hp, hp'⟩ := running_accepted (Or.inl rfl)
  obtain ⟨r, hr, htest⟩ := exists_ok_of_any
    (propagate (.index (running (loop 0))) ⟨0⟩)
    (fun r => decide (r.inFacts[Node.stmt ⟨⟨0⟩, 2⟩]?.map (·.get ⟨2⟩) = some .nac ∧
      r.outFacts[Node.stmt ⟨⟨0⟩, 1⟩]?.map (·.get ⟨2⟩) = some .unset)) (by decide +kernel)
  obtain ⟨r', hr', htest'⟩ := exists_ok_of_any
    (propagate (.index (running (turnedLoop 0))) ⟨0⟩)
    (fun r => decide (r.inFacts[turned (.stmt ⟨⟨0⟩, 2⟩)]?.map (·.get ⟨2⟩) = some .unset))
    (by decide +kernel)
  obtain ⟨hin, hout⟩ := of_decide_eq_true htest
  obtain ⟨fact, hfact, hnac⟩ := Option.map_eq_some_iff.1 hin
  obtain ⟨out, hout, hunset⟩ := Option.map_eq_some_iff.1 hout
  obtain ⟨fact', hfact', hunset'⟩ := Option.map_eq_some_iff.1 (of_decide_eq_true htest')
  exact ⟨hp, hp', relaid_turned (Or.inl rfl), by decide +kernel, r, r', fact, out, fact', hr, hr',
    hfact, hout, hfact', hnac, hunset, hunset'⟩

end Constant

end ObjectFlow
