import ObjectFlow.Proofs.Hierarchy
import ObjectFlow.Proofs.Neighbours
import ObjectFlow.Proofs.Runs

/-!
# Where control may pass

`ControlFlow.Passes` says, statement by statement and without the graph, when control may pass from
one node of a method to another and why. The control flow graph of every method of an accepted
program says the same (`ControlFlow.exists_charts`): its edges are the passages with their reasons,
and the neighbours of a node are listed once each, however many reasons there are to go there.

Targets of jumps are positions of the body, since the program has been accepted, so a jump never
leads to the exit. The exit is reached from a return and from behind the last statement.
-/

namespace ObjectFlow

namespace Program

variable {p : Program}

/-- What is particular to the form of a statement is in order. -/
theorem formedStmt (hp : p.Accepted) {site : StmtId} {s : Stmt} {method : Method}
    (hm : p.method site.method = .ok method) (h : p.stmt site = .ok s) :
    p.model.FormedStmt method.decl s := by
  obtain ⟨method', hm', hbody⟩ := stmt_eq_ok.1 h
  rw [hm] at hm'
  cases hm'
  obtain ⟨d, hd, rfl⟩ := (method_eq_ok hp).1 hm
  exact (hp.wellFormed.methods hd).stmts s (Array.mem_of_getElem? hbody)

theorem exists_stmt_iff {m : MethodId} {method : Method} (hm : p.method m = .ok method) {i : Nat} :
    (∃ s, p.stmt ⟨m, i⟩ = .ok s) ↔ i < method.decl.body.size := by
  constructor
  · rintro ⟨s, hst⟩
    obtain ⟨method', hm', hbody⟩ := stmt_eq_ok.1 hst
    rw [hm] at hm'
    cases hm'
    exact (Array.getElem?_eq_some_iff.1 hbody).1
  · intro hi
    exact ⟨_, stmt_eq_ok.2 ⟨method, hm, Array.getElem?_eq_getElem hi⟩⟩

end Program

namespace ControlFlow

/-! ## Passages -/

/-- Control goes on at a position of a body: at the statement there, or at the exit if the position
is the one behind the last statement. -/
inductive GoesOn (p : Program) (m : MethodId) (i : Nat) : Node → Prop
  | stmt {s : Stmt} : p.stmt ⟨m, i⟩ = .ok s → GoesOn p m i (.stmt ⟨m, i⟩)
  | exit {method : Method} : p.method m = .ok method → i = method.decl.body.size →
      GoesOn p m i (.exit m)

/-- Control may pass from one node of a method to another, for a reason. -/
inductive Passes (p : Program) (m : MethodId) : FlowKind → Node → Node → Prop
  | entry {next : Node} : GoesOn p m 0 next → Passes p m .entry (.entry m) next
  | fallThrough {i : Nat} {s : Stmt} {next : Node} : p.stmt ⟨m, i⟩ = .ok s →
      s.fallsThrough = true → (∀ op left right target, s ≠ .branch op left right target) →
      GoesOn p m (i + 1) next → Passes p m .fallThrough (.stmt ⟨m, i⟩) next
  | goto {i target : Nat} : p.stmt ⟨m, i⟩ = .ok (.goto target) →
      Passes p m .goto (.stmt ⟨m, i⟩) (.stmt ⟨m, target⟩)
  | ifTrue {i : Nat} {op : BinaryOp} {left right : VarId} {target : Nat} :
      p.stmt ⟨m, i⟩ = .ok (.branch op left right target) →
      Passes p m .ifTrue (.stmt ⟨m, i⟩) (.stmt ⟨m, target⟩)
  | ifFalse {i : Nat} {op : BinaryOp} {left right : VarId} {target : Nat} {next : Node} :
      p.stmt ⟨m, i⟩ = .ok (.branch op left right target) → GoesOn p m (i + 1) next →
      Passes p m .ifFalse (.stmt ⟨m, i⟩) next
  | switchCase {i : Nat} {on : VarId} {cases : List (Int32 × Nat)} {default : Nat} {value : Int32}
      {target : Nat} : p.stmt ⟨m, i⟩ = .ok (.switch on cases default) → (value, target) ∈ cases →
      Passes p m (.switchCase value) (.stmt ⟨m, i⟩) (.stmt ⟨m, target⟩)
  | switchDefault {i : Nat} {on : VarId} {cases : List (Int32 × Nat)} {default : Nat} :
      p.stmt ⟨m, i⟩ = .ok (.switch on cases default) →
      Passes p m .switchDefault (.stmt ⟨m, i⟩) (.stmt ⟨m, default⟩)
  | ret {i : Nat} {value : Option VarId} : p.stmt ⟨m, i⟩ = .ok (.ret value) →
      Passes p m .ret (.stmt ⟨m, i⟩) (.exit m)

variable {p : Program} {m : MethodId} {method : Method} {kind : FlowKind} {n next : Node} {i : Nat}
  {s : Stmt}

theorem Passes.source_ne_exit {m' : MethodId} (h : Passes p m kind n next) : n ≠ .exit m' := by
  cases h <;> exact Node.noConfusion

section

variable (hm : p.method m = .ok method)
include hm

theorem goesOn_iff (hi : i ≤ method.decl.body.size) :
    GoesOn p m i next ↔ nodeAt m method.decl.body.size i = next := by
  unfold nodeAt
  constructor
  · rintro (⟨hst⟩ | ⟨hm', rfl⟩)
    · rw [if_pos ((Program.exists_stmt_iff hm).1 ⟨_, hst⟩)]
    · rw [hm] at hm'
      cases hm'
      rw [if_neg (Nat.lt_irrefl _)]
  · rintro rfl
    split
    · next hlt =>
      obtain ⟨s, hst⟩ := (Program.exists_stmt_iff hm).2 hlt
      exact .stmt hst
    · next hlt => exact .exit hm (Nat.le_antisymm hi (Nat.not_lt.1 hlt))

/-- Control can go on at every position up to the one behind the last statement. -/
theorem exists_goesOn (hi : i ≤ method.decl.body.size) : ∃ next, GoesOn p m i next :=
  ⟨_, (goesOn_iff hm hi).2 rfl⟩

/-- What follows a statement is a position of the body or the one behind it. -/
theorem goesOn_succ_iff (hst : p.stmt ⟨m, i⟩ = .ok s) :
    GoesOn p m (i + 1) next ↔ nodeAt m method.decl.body.size (i + 1) = next :=
  goesOn_iff hm ((Program.exists_stmt_iff hm).1 ⟨s, hst⟩)

theorem exists_passes_of_stmt (hst : p.stmt ⟨m, i⟩ = .ok s) :
    ∃ kind next, Passes p m kind (.stmt ⟨m, i⟩) next := by
  obtain ⟨next, hnext⟩ := exists_goesOn hm ((Program.exists_stmt_iff hm).1 ⟨s, hst⟩)
  cases s with
  | goto target => exact ⟨_, _, .goto hst⟩
  | branch op left right target => exact ⟨_, _, .ifTrue hst⟩
  | switch on cases default => exact ⟨_, _, .switchDefault hst⟩
  | ret value => exact ⟨_, _, .ret hst⟩
  | _ => exact ⟨_, next, .fallThrough hst rfl (fun _ _ _ _ => Stmt.noConfusion) hnext⟩

end

/-! ## Edges -/

theorem nodeAt_of_lt {size : Nat} (h : i < size) : nodeAt m size i = .stmt ⟨m, i⟩ := if_pos h

/-- What is neither a jump nor a return leads to the next statement. -/
theorem steps_of_fallsThrough {size : Nat} (hfalls : s.fallsThrough = true)
    (hbranch : ∀ op left right target, s ≠ .branch op left right target) :
    steps m size i s = [(.fallThrough, nodeAt m size (i + 1))] := by
  cases s with
  | goto | switch | ret => cases hfalls
  | branch op left right target => exact absurd rfl (hbranch op left right target)
  | _ => rfl

section

variable (hp : p.Accepted) (hm : p.method m = .ok method)
include hp hm

/-- The steps out of a statement are the passages that start there. -/
theorem mem_steps_iff (hst : p.stmt ⟨m, i⟩ = .ok s) :
    (kind, next) ∈ steps m method.decl.body.size i s ↔ Passes p m kind (.stmt ⟨m, i⟩) next := by
  have hformed := Program.formedStmt hp hm hst
  constructor
  · intro h
    cases s with
    | goto target =>
      cases List.mem_singleton.1 h
      rw [nodeAt_of_lt hformed]
      exact .goto hst
    | branch op left right target =>
      rcases List.mem_cons.1 h with h | h
      · cases h
        rw [nodeAt_of_lt hformed.2]
        exact .ifTrue hst
      · cases List.mem_singleton.1 h
        exact .ifFalse hst ((goesOn_succ_iff hm hst).2 rfl)
    | switch on cases default =>
      rcases List.mem_append.1 h with h | h
      · obtain ⟨⟨value, target⟩, hcase, h⟩ := List.mem_map.1 h
        cases h
        rw [nodeAt_of_lt (hformed.2 _ hcase)]
        exact .switchCase hst hcase
      · cases List.mem_singleton.1 h
        rw [nodeAt_of_lt hformed.1]
        exact .switchDefault hst
    | ret value =>
      cases List.mem_singleton.1 h
      exact .ret hst
    | _ =>
      cases List.mem_singleton.1 h
      exact .fallThrough hst rfl (fun _ _ _ _ => Stmt.noConfusion) ((goesOn_succ_iff hm hst).2 rfl)
  · intro h
    cases h with
    | fallThrough hst' hfalls hbranch hnext =>
      cases hst.symm.trans hst'
      rw [steps_of_fallsThrough hfalls hbranch, (goesOn_succ_iff hm hst).1 hnext]
      exact List.mem_singleton_self _
    | goto hst' =>
      cases hst.symm.trans hst'
      rw [steps, nodeAt_of_lt hformed]
      exact List.mem_singleton_self _
    | ifTrue hst' =>
      cases hst.symm.trans hst'
      rw [steps, nodeAt_of_lt hformed.2]
      exact List.mem_cons_self
    | ifFalse hst' hnext =>
      cases hst.symm.trans hst'
      rw [steps, (goesOn_succ_iff hm hst).1 hnext]
      exact List.mem_cons_of_mem _ (List.mem_singleton_self _)
    | switchCase hst' hcase =>
      cases hst.symm.trans hst'
      rw [steps, ← nodeAt_of_lt (hformed.2 _ hcase)]
      exact List.mem_append_left _ (List.mem_map.2 ⟨_, hcase, rfl⟩)
    | switchDefault hst' =>
      cases hst.symm.trans hst'
      rw [steps, ← nodeAt_of_lt hformed.1]
      exact List.mem_append_right _ (List.mem_singleton_self _)
    | ret hst' =>
      cases hst.symm.trans hst'
      exact List.mem_singleton_self _

/-- The edges of the graph are the passages, with their reasons. -/
theorem mem_edges_iff {e : FlowEdge} :
    e ∈ edgesOf method ↔ Passes p m e.kind e.source e.target := by
  have hid := Program.id_of_method hp hm
  constructor
  · intro he
    rcases List.mem_cons.1 he with rfl | he
    · rw [hid]
      exact .entry ((goesOn_iff hm (Nat.zero_le _)).2 rfl)
    · obtain ⟨⟨site, s⟩, hs, he⟩ := List.mem_flatMap.1 he
      obtain ⟨⟨kind, target⟩, hstep, rfl⟩ := List.mem_map.1 he
      obtain ⟨rfl, hst⟩ := (Program.mem_stmts hp hm).1 hs
      rw [hid] at hstep
      exact (mem_steps_iff hp hm hst).1 hstep
  · intro he
    obtain ⟨kind, n, next⟩ := e
    change Passes p m kind n next at he
    have hstmt : ∀ {i s}, p.stmt ⟨m, i⟩ = .ok s → Passes p m kind (.stmt ⟨m, i⟩) next →
        ⟨kind, .stmt ⟨m, i⟩, next⟩ ∈ edgesOf method := by
      intro i s hst hpass
      have hs := (Program.mem_stmts hp hm).2 ⟨rfl, hst⟩
      refine List.mem_cons_of_mem _
        (List.mem_flatMap.2 ⟨_, hs, List.mem_map.2 ⟨(kind, next), ?_, rfl⟩⟩)
      rw [hid]
      exact (mem_steps_iff hp hm hst).2 hpass
    have hpass := he
    cases he with
    | entry hnext =>
      rw [← (goesOn_iff hm (Nat.zero_le _)).1 hnext, ← hid]
      exact List.mem_cons_self
    | fallThrough hst | goto hst | ifTrue hst | ifFalse hst | switchCase hst | switchDefault hst
    | ret hst => exact hstmt hst hpass

theorem mem_succs_iff : next ∈ (ofMethod method).succs n ↔ ∃ kind, Passes p m kind n next := by
  rw [mem_succs]
  constructor
  · rintro ⟨e, he, rfl, rfl⟩
    exact ⟨e.kind, (mem_edges_iff hp hm).1 he⟩
  · rintro ⟨kind, h⟩
    exact ⟨⟨kind, n, next⟩, (mem_edges_iff hp hm).2 h, rfl, rfl⟩

theorem mem_nodesOf_iff : n ∈ nodesOf method ↔
    n = .entry m ∨ (∃ i s, n = .stmt ⟨m, i⟩ ∧ p.stmt ⟨m, i⟩ = .ok s) ∨ n = .exit m := by
  have hstmts : (∃ site s, (site, s) ∈ method.stmts ∧ n = .stmt site) ↔
      ∃ i s, n = .stmt ⟨m, i⟩ ∧ p.stmt ⟨m, i⟩ = .ok s := by
    simp only [Program.mem_stmts hp hm]
    constructor
    · rintro ⟨site, s, ⟨rfl, hst⟩, rfl⟩
      exact ⟨site.index, s, rfl, hst⟩
    · rintro ⟨i, s, rfl, hst⟩
      exact ⟨_, s, ⟨rfl, hst⟩, rfl⟩
  rw [mem_nodesOf, hstmts, Program.id_of_method hp hm]

/-- Control goes on from every node but the exit. -/
theorem succs_eq_nil_iff (hn : n ∈ nodesOf method) :
    (ofMethod method).succs n = [] ↔ n = .exit m := by
  have hleaves : ∀ {kind next}, Passes p m kind n next → (ofMethod method).succs n ≠ [] :=
    fun h hnil => List.not_mem_nil (hnil ▸ (mem_succs_iff hp hm).2 ⟨_, h⟩)
  rcases (mem_nodesOf_iff hp hm).1 hn with rfl | ⟨i, s, rfl, hst⟩ | rfl
  · obtain ⟨next, hnext⟩ := exists_goesOn hm (Nat.zero_le _)
    exact iff_of_false (hleaves (.entry hnext)) Node.noConfusion
  · obtain ⟨kind, next, hnext⟩ := exists_passes_of_stmt hm hst
    exact iff_of_false (hleaves hnext) Node.noConfusion
  · refine iff_of_true (List.eq_nil_iff_forall_not_mem.2 fun next hnext => ?_) rfl
    obtain ⟨kind, h⟩ := (mem_succs_iff hp hm).1 hnext
    exact h.source_ne_exit rfl

end

/-! ## Graphs -/

/-- A control flow graph shows how control may pass in a method. Its nodes are the statements
between the entry and the exit, its edges are the passages with their reasons, and the neighbours of
a node are those of its passages, once each, as they come into the tables of neighbours. -/
structure Charts (p : Program) (m : MethodId) (g : ControlFlow) : Prop where
  ends : g.graph.entry = .entry m ∧ g.graph.exit = .exit m
  nodes : ∀ {n}, n ∈ g.graph.nodes ↔
    n = .entry m ∨ (∃ i s, n = .stmt ⟨m, i⟩ ∧ p.stmt ⟨m, i⟩ = .ok s) ∨ n = .exit m
  nodup_nodes : g.graph.nodes.Nodup
  edges : ∀ {e}, e ∈ g.edges ↔ Passes p m e.kind e.source e.target
  succs : ∀ {n next}, next ∈ g.graph.succs n ↔ ∃ kind, Passes p m kind n next
  preds : ∀ {n next}, n ∈ g.graph.preds next ↔ next ∈ g.graph.succs n
  nodup_succs : ∀ n, (g.graph.succs n).Nodup
  nodup_preds : ∀ n, (g.graph.preds n).Nodup
  mem_nodes : ∀ {n next}, next ∈ g.graph.succs n → n ∈ g.graph.nodes ∧ next ∈ g.graph.nodes
  entry : g.graph.preds g.graph.entry = []
  exit : ∀ {n}, n ∈ g.graph.nodes → (g.graph.succs n = [] ↔ n = g.graph.exit)
  tables : ∀ n, g.tables.succs.getD n [] = g.graph.succs n ∧
    g.tables.preds.getD n [] = g.graph.preds n

/-- **Control flow.** Every method of an accepted program has a control flow graph, also if it has
no body, and the graph shows how control may pass in the method. -/
theorem exists_charts (hp : p.Accepted) (hm : m ∈ p.methodIds) :
    ∃ g, ControlFlow.of p m = .ok g ∧ Charts p m g := by
  obtain ⟨method, hmethod⟩ := (Program.mem_methodIds hp).1 hm
  obtain rfl := Program.id_of_method hp hmethod
  refine ⟨ofMethod method, Supergraph.of_eq_ok.2 ⟨method, hmethod, rfl⟩, ⟨rfl, rfl⟩,
    mem_nodesOf_iff hp hmethod, nodup_nodesOf method, mem_edges_iff hp hmethod,
    mem_succs_iff hp hmethod, (coherent method).mem_preds, fun _ => nodup_succs,
    fun _ => nodup_preds, fun h => ⟨(succs_mem h).1, (succs_mem h).2.1⟩, ?_,
    succs_eq_nil_iff hp hmethod, tables_ofMethod method⟩
  refine List.eq_nil_iff_forall_not_mem.2 fun n hn => ?_
  exact (succs_mem ((coherent method).mem_preds.1 hn)).2.2 rfl

/-- Both ways out of the first statement lead to the second, which leads to itself and in three ways
to the last one. The third leads only to itself. A second method has no body. -/
def jumping : Model where
  classes := #[{ name := "Main", isAbstract := true }]
  methods := #[
    { owner := ⟨0⟩, name := "main", subsignature := "void main()", isStatic := true,
      returnType := .void,
      body := #[.branch .eq ⟨0⟩ ⟨0⟩ 1, .switch ⟨0⟩ [(0, 3), (1, 1), (2, 3)] 3, .goto 2, .nop] },
    { owner := ⟨0⟩, name := "idle", subsignature := "void idle()", isAbstract := true,
      returnType := .void }]
  vars := #[⟨⟨0⟩, "x", .int⟩]
  entry := ⟨0⟩

theorem jumping_accepted : (Program.index jumping).Accepted := by
  have h : jumping.violations = [] := by decide +kernel
  exact ⟨jumping, by rw [Program.ofModel, h]⟩

/-- In `jumping` nine edges make up six pairs of neighbours. -/
theorem jumping_charts :
    (∃ g, ControlFlow.of (.index jumping) ⟨0⟩ = .ok g ∧ g.edges.length = 9 ∧
      g.succs (.stmt ⟨⟨0⟩, 1⟩) = [.stmt ⟨⟨0⟩, 3⟩, .stmt ⟨⟨0⟩, 1⟩] ∧
      g.preds (.stmt ⟨⟨0⟩, 1⟩) = [.stmt ⟨⟨0⟩, 0⟩, .stmt ⟨⟨0⟩, 1⟩] ∧
      g.preds (.exit ⟨0⟩) = [.stmt ⟨⟨0⟩, 3⟩] ∧ Charts (.index jumping) ⟨0⟩ g) ∧
    ∃ g, ControlFlow.of (.index jumping) ⟨1⟩ = .ok g ∧ g.succs (.entry ⟨1⟩) = [.exit ⟨1⟩] ∧
      Charts (.index jumping) ⟨1⟩ g := by
  obtain ⟨g, hg, hcharts⟩ := exists_charts (m := ⟨0⟩) jumping_accepted (by decide)
  obtain ⟨idle, hidle, hidleCharts⟩ := exists_charts (m := ⟨1⟩) jumping_accepted (by decide)
  obtain ⟨g', hg', htest⟩ := exists_ok_of_any (ControlFlow.of (.index jumping) ⟨0⟩)
    (fun g => decide (g.edges.length = 9 ∧
      g.succs (.stmt ⟨⟨0⟩, 1⟩) = [.stmt ⟨⟨0⟩, 3⟩, .stmt ⟨⟨0⟩, 1⟩] ∧
      g.preds (.stmt ⟨⟨0⟩, 1⟩) = [.stmt ⟨⟨0⟩, 0⟩, .stmt ⟨⟨0⟩, 1⟩] ∧
      g.preds (.exit ⟨0⟩) = [.stmt ⟨⟨0⟩, 3⟩])) (by decide +kernel)
  obtain ⟨idle', hidle', hidleTest⟩ :=
    exists_ok_of_any (ControlFlow.of (.index jumping) ⟨1⟩)
      (fun g => decide (g.succs (.entry ⟨1⟩) = [.exit ⟨1⟩])) (by decide +kernel)
  cases hg.symm.trans hg'
  cases hidle.symm.trans hidle'
  obtain ⟨hedges, hsuccs, hpreds, hexit⟩ := of_decide_eq_true htest
  exact ⟨⟨g, hg, hedges, hsuccs, hpreds, hexit, hcharts⟩, idle, hidle, of_decide_eq_true hidleTest,
    hidleCharts⟩

end ControlFlow

end ObjectFlow
