import ObjectFlow.CallGraph.Hierarchical
import ObjectFlow.Constant.Interprocedural
import ObjectFlow.Proofs.Propagation
import ObjectFlow.Proofs.SuperSolving

/-!
# Facts have one form

A table of values can say in two ways that a variable is undefined: the variable is bound to
`unset`, or it is not bound at all. Then two tables may differ although every variable has the same
value in both, and a solver that compares tables would see a change where there is none.

This does not happen to tables that come about from the empty one by updates, removals and meets, in
any number and order (`Recipe`): none of these operations stores `unset`. Such a table is determined
by the values of the variables, and whoever reports a change reports it truly (`Recipe.canonical`).

The tables here are bare, and `update` and `replace` look at nothing but the table to find out
whether they change it. A `ConstFact` is a table together with the proof that it does not hold
`unset`; its operations are those on tables (`Recipe.table_eq`).
-/

namespace ObjectFlow

open Std

/-- Values of variables, some of which may be `unset`. -/
abbrev Bindings := ExtTreeMap VarId Value

theorem ConstFact.update_eq_self_iff {f : ConstFact} {v : VarId} {x : Value} :
    f.update v x = f ↔ f.get v = x := by
  constructor
  · intro h
    rw [← h, get_update, if_pos rfl]
  · rintro rfl
    refine ext fun w => ?_
    rw [get_update]
    split
    · next hw => rw [hw]
    · rfl

namespace Bindings

def value (b : Bindings) (v : VarId) : Value := b[v]?.getD .unset

/-- Give a variable a value, and say whether the table has changed. To be undefined is not to be
bound. -/
def update (b : Bindings) (v : VarId) (x : Value) : Bool × Bindings :=
  if x = .unset then (b.contains v, b.erase v) else (b[v]? ≠ some x, b.insert v x)

/-- Meet the bindings of a table into another one, one after the other. -/
def meetInto (b target : Bindings) : Bindings :=
  b.toList.foldl (fun t (v, x) => (t.update v ((t.value v).meet x)).2) target

/-- Put a table in the place of another one, and say whether that is a change. -/
def replace (old new : Bindings) : Bool × Bindings :=
  if old = new then (false, old) else (true, new)

/-- Bare tables can differ in a variable that is undefined in both. -/
example : ∃ b c : Bindings, b ≠ c ∧ ∀ v, b.value v = c.value v := by
  refine ⟨∅, (∅ : Bindings).insert ⟨0⟩ .unset, fun h => ?_, fun v => ?_⟩
  · simpa using congrArg (·[(⟨0⟩ : VarId)]?) h
  · simp only [value, ExtTreeMap.getElem?_insert]
    split <;> simp

/-! ## Operations on tables and on facts -/

variable (f g : ConstFact)

theorem value_bindings (v : VarId) : value f.bindings v = f.get v := rfl

theorem update_bindings (v : VarId) (x : Value) :
    (update f.bindings v x).2 = (f.update v x).bindings := by
  unfold update ConstFact.update ConstFact.set
  split <;> rfl

/-- The look at the table tells whether the value of the variable is another one. -/
theorem update_reports (v : VarId) (x : Value) :
    (update f.bindings v x).1 = true ↔ f.get v ≠ x := by
  unfold update
  split
  · next hx =>
    rw [ExtTreeMap.contains_eq_isSome_getElem?, ConstFact.getElem?_bindings, hx]
    split <;> simp_all
  · next hx =>
    rw [decide_eq_true_iff, ConstFact.getElem?_bindings]
    split
    · next hunset => simpa [hunset] using Ne.symm hx
    · simp

theorem meetInto_bindings : meetInto f.bindings g.bindings = (f.meet g).bindings := by
  -- Both folds run over one list, and every step takes bindings to bindings.
  refine List.foldl_hom ConstFact.bindings fun t b => ?_
  exact update_bindings t b.1 ((t.get b.1).meet b.2)

theorem bindings_inj : f.bindings = g.bindings ↔ f = g := by
  constructor
  · intro h
    refine ConstFact.ext fun v => ?_
    rw [← value_bindings, h, value_bindings]
  · exact congrArg ConstFact.bindings

end Bindings

/-! ## Recipes -/

/-- The ways in which tables come about. -/
inductive Recipe
  | empty
  | update (r : Recipe) (v : VarId) (x : Value)
  | remove (r : Recipe) (v : VarId)
  | meetInto (r target : Recipe)

namespace Recipe

/-- The table that comes about. -/
def table : Recipe → Bindings
  | empty => ∅
  | update r v x => (r.table.update v x).2
  | remove r v => r.table.erase v
  | meetInto r target => r.table.meetInto target.table

/-- The fact that comes about in the same way. -/
def fact : Recipe → ConstFact
  | empty => ∅
  | update r v x => r.fact.update v x
  | remove r v => r.fact.remove v
  | meetInto r target => r.fact.meet target.fact

/-- The table of a recipe holds the bindings of its fact. -/
theorem table_eq (r : Recipe) : r.table = r.fact.bindings := by
  induction r with
  | empty => rfl
  | update r v x ih => rw [table, ih, Bindings.update_bindings, fact]
  | remove r v ih => rw [table, ih, fact, ConstFact.remove]
  | meetInto r target ihr ihtarget => rw [table, ihr, ihtarget, Bindings.meetInto_bindings, fact]

end Recipe

/-! ## The laws of tables -/

namespace Bindings

/-- The outcome of an update: it is reported as a change exactly if the variable had another value,
which is when the table is another one, and no other variable is touched. -/
structure Updates (b : Bindings) (v : VarId) (x : Value) (outcome : Bool × Bindings) : Prop where
  reports : outcome.1 = true ↔ b.value v ≠ x
  ne_iff : outcome.2 ≠ b ↔ b.value v ≠ x
  value_self : outcome.2.value v = x
  value_other : ∀ w, w ≠ v → outcome.2.value w = b.value w

/-- Tables meet variable by variable, and neither order nor grouping nor repetition matters. -/
structure Meets (a b c : Bindings) : Prop where
  value : ∀ v, (a.meetInto b).value v = (a.value v).meet (b.value v)
  comm : a.meetInto b = b.meetInto a
  assoc : (a.meetInto b).meetInto c = a.meetInto (b.meetInto c)
  self : a.meetInto a = a

/-- The outcome of a replacement: it is reported as a change exactly if some variable had another
value. -/
structure Replaces (old new : Bindings) (outcome : Bool × Bindings) : Prop where
  reports : outcome.1 = true ↔ ∃ v, old.value v ≠ new.value v
  stores : outcome.2 = new

theorem updates (f : ConstFact) (v : VarId) (x : Value) :
    Updates f.bindings v x (update f.bindings v x) where
  reports := update_reports f v x
  ne_iff := by
    rw [update_bindings, ne_eq, bindings_inj, ConstFact.update_eq_self_iff]
    rfl
  value_self := by rw [update_bindings, value_bindings, ConstFact.get_update, if_pos rfl]
  value_other w hw := by
    rw [update_bindings, value_bindings, ConstFact.get_update, if_neg (Ne.symm hw), value_bindings]

theorem meets (f g h : ConstFact) : Meets f.bindings g.bindings h.bindings where
  value v := by rw [meetInto_bindings]; exact ConstFact.get_meet f g v
  comm := by
    simp only [meetInto_bindings, bindings_inj, ← ConstFact.sup_eq_meet]
    exact sup_comm f g
  assoc := by
    simp only [meetInto_bindings, bindings_inj, ← ConstFact.sup_eq_meet]
    exact sup_assoc f g h
  self := by
    simp only [meetInto_bindings, bindings_inj, ← ConstFact.sup_eq_meet]
    exact sup_idem f

theorem eq_iff_value (f g : ConstFact) :
    f.bindings = g.bindings ↔ ∀ v, value f.bindings v = value g.bindings v := by
  rw [bindings_inj]
  exact ConstFact.ext_iff

theorem replaces (f g : ConstFact) : Replaces f.bindings g.bindings (replace f.bindings g.bindings)
    where
  reports := by
    rw [← not_forall, ← eq_iff_value, replace]
    split <;> simp_all
  stores := by
    rw [replace]
    split
    · assumption
    · rfl

end Bindings

/-! ## Changes that the solvers see -/

namespace Dataflow

/-- Nodes join an agenda exactly if some variable has got another value. -/
structure Requeues (old new : ConstFact) (nodes : List Node) (before after : Agenda Node) :
    Prop where
  changed : (∃ v, old.get v ≠ new.get v) → after = before.pushMany nodes
  same : (∀ v, old.get v = new.get v) → after = before

theorem requeues_ite (old new : ConstFact) (nodes : List Node) (before : Agenda Node) :
    Requeues old new nodes before (if new = old then before else before.pushMany nodes) where
  changed := by
    rintro ⟨v, hv⟩
    exact if_neg fun h => hv (by rw [h])
  same h := if_pos (ConstFact.ext fun v => (h v).symm)

/-- The solver of one method goes on with the successors of a node exactly if what flows out of the
node gives another value to some variable. -/
theorem visit_requeues {a : Analysis Node ConstFact} {g : FlowGraph Node} {n : Node}
    {s s' : Progress Node ConstFact} (h : visit a g n s = .ok s') :
    ∃ old new, s.output[n]? = some old ∧ s'.output[n]? = some new ∧
      Requeues old new ((g.succs n).filter (· ≠ g.entry)) s.agenda s'.agenda := by
  obtain ⟨-, hold, -⟩ := visit_eq_ok.1 h
  exact ⟨_, _, hold, ExtTreeMap.getElem?_insert_self, requeues_ite ..⟩

/-- So does the solver of a program, after it has put on the agenda what the state that all nodes
share calls for. -/
theorem Super.visit_requeues {σ : Type} {a : SuperAnalysis σ ConstFact} {g : Supergraph} {n : Node}
    {s s' : SuperProgress σ ConstFact} (h : visit a g n s = .ok s') :
    ∃ old new input affected, s.output[n]? = some old ∧ s'.output[n]? = some new ∧
      a.refine s.shared n input = .ok (s'.shared, affected) ∧
      Requeues old new (g.succs n) (s.agenda.pushMany affected) s'.agenda := by
  obtain @⟨_, old, input, new, affected, -, hold, -, hrefine, -, -, houtput, hagenda⟩ :=
    visited_of_visit h
  refine ⟨old, new, input, affected, hold, ?_, hrefine, ?_⟩
  · rw [houtput]
    exact ExtTreeMap.getElem?_insert_self
  · rw [hagenda]
    exact requeues_ite ..

end Dataflow

open Bindings Dataflow

/-- Whatever has been done to tables, none of them binds a variable to `unset`, so each is
determined by the values of the variables. Updates and replacements report exactly the changes of
values, and a meet is the meet of the values. In the same way the solvers see a change of a fact
exactly if the value of a variable has changed. -/
theorem Recipe.canonical :
    (∀ r : Recipe, r.table = r.fact.bindings ∧ ∀ v : VarId, r.table[v]? ≠ some .unset) ∧
    (∀ r s : Recipe, r.table = s.table ↔ ∀ v, r.table.value v = s.table.value v) ∧
    (∀ (r : Recipe) (v : VarId) (x : Value), Updates r.table v x (r.table.update v x)) ∧
    (∀ r s t : Recipe, Meets r.table s.table t.table) ∧
    (∀ old new : Recipe, Replaces old.table new.table (old.table.replace new.table)) ∧
    (∀ (a : Analysis Node ConstFact) (g : FlowGraph Node) (n : Node)
      (s s' : Progress Node ConstFact), visit a g n s = .ok s' →
      ∃ old new, s.output[n]? = some old ∧ s'.output[n]? = some new ∧
        Requeues old new ((g.succs n).filter (· ≠ g.entry)) s.agenda s'.agenda) ∧
    (∀ (σ : Type) (a : SuperAnalysis σ ConstFact) (g : Supergraph) (n : Node)
      (s s' : SuperProgress σ ConstFact), Super.visit a g n s = .ok s' →
      ∃ old new input affected, s.output[n]? = some old ∧ s'.output[n]? = some new ∧
        a.refine s.shared n input = .ok (s'.shared, affected) ∧
        Requeues old new (g.succs n) (s.agenda.pushMany affected) s'.agenda) := by
  refine ⟨fun r => ⟨r.table_eq, fun v => ?_⟩, fun r s => ?_, fun r v x => ?_, fun r s t => ?_,
    fun old new => ?_, fun _ _ _ _ _ h => visit_requeues h,
    fun _ _ _ _ _ _ h => Super.visit_requeues h⟩
  · rw [r.table_eq]
    exact r.fact.ne_unset v
  · rw [r.table_eq, s.table_eq]
    exact eq_iff_value r.fact s.fact
  · rw [r.table_eq]
    exact updates r.fact v x
  · rw [r.table_eq, s.table_eq, t.table_eq]
    exact meets r.fact s.fact t.fact
  · rw [old.table_eq, new.table_eq]
    exact replaces old.fact new.fact

/-- The first visit of the literal in `doubling`, by the solver of its method and by that of the
program. -/
theorem Recipe.doubling_canonical :
    (∃ a g s, Constant.analysis (.index Constant.doubling) ⟨1⟩ = .ok a ∧
      ControlFlow.of (.index Constant.doubling) ⟨1⟩ = .ok g ∧
      visit a g.graph (.stmt ⟨⟨1⟩, 0⟩) (start a g.graph) = .ok s ∧
      ∃ old new, (start a g.graph).output[Node.stmt ⟨⟨1⟩, 0⟩]? = some old ∧
        s.output[Node.stmt ⟨⟨1⟩, 0⟩]? = some new ∧ new.get ⟨2⟩ = .const 2 ∧
        Requeues old new [.stmt ⟨⟨1⟩, 1⟩] (start a g.graph).agenda s.agenda) ∧
    ∃ a g first s, a = Constant.superAnalysis (.index Constant.doubling) default ∧
      Super.start a g {} = .ok first ∧ Super.visit a g (.stmt ⟨⟨1⟩, 0⟩) first = .ok s ∧
      ∃ old new affected, first.output[Node.stmt ⟨⟨1⟩, 0⟩]? = some old ∧
        s.output[Node.stmt ⟨⟨1⟩, 0⟩]? = some new ∧ new.get ⟨2⟩ = .const 2 ∧
        Requeues old new [.stmt ⟨⟨1⟩, 1⟩] (first.agenda.pushMany affected) s.agenda := by
  obtain ⟨-, -, -, -, -, hvisit, hsuper⟩ := Recipe.canonical
  constructor
  · obtain ⟨⟨a, g, s⟩, hrun, htest⟩ := exists_ok_of_any
      (do
        let a ← Constant.analysis (.index Constant.doubling) ⟨1⟩
        let g ← ControlFlow.of (.index Constant.doubling) ⟨1⟩
        let s ← visit a g.graph (.stmt ⟨⟨1⟩, 0⟩) (start a g.graph)
        return (a, g, s))
      (fun r => decide (r.2.2.output[Node.stmt ⟨⟨1⟩, 0⟩]?.map (·.get ⟨2⟩) = some (.const 2) ∧
        (r.2.1.graph.succs (.stmt ⟨⟨1⟩, 0⟩)).filter (· ≠ r.2.1.graph.entry) =
          [.stmt ⟨⟨1⟩, 1⟩])) (by decide +kernel)
    obtain ⟨a, ha, hrun⟩ := bind_eq_ok.1 hrun
    obtain ⟨g, hg, hrun⟩ := bind_eq_ok.1 hrun
    obtain ⟨s, hs, hrun⟩ := bind_eq_ok.1 hrun
    cases hrun
    obtain ⟨old, new, hold, hnew, hrequeues⟩ := hvisit a g.graph _ _ s hs
    obtain ⟨hvalue, hsuccs⟩ := of_decide_eq_true htest
    rw [hsuccs] at hrequeues
    rw [hnew] at hvalue
    exact ⟨a, g, s, ha, hg, hs, old, new, hold, hnew, Option.some.inj hvalue, hrequeues⟩
  · obtain ⟨⟨g, first, s⟩, hrun, htest⟩ := exists_ok_of_any
      (do
        let calls ← CallGraph.hierarchical (.index Constant.doubling)
        let g ← Supergraph.ofCalls (.index Constant.doubling) calls
        let a := Constant.superAnalysis (.index Constant.doubling) default
        let first ← Super.start a g {}
        let s ← Super.visit a g (.stmt ⟨⟨1⟩, 0⟩) first
        return (g, first, s))
      (fun r => decide (r.2.2.output[Node.stmt ⟨⟨1⟩, 0⟩]?.map (·.get ⟨2⟩) = some (.const 2) ∧
        r.1.succs (.stmt ⟨⟨1⟩, 0⟩) = [.stmt ⟨⟨1⟩, 1⟩])) (by decide +kernel)
    obtain ⟨calls, -, hrun⟩ := bind_eq_ok.1 hrun
    obtain ⟨g, -, hrun⟩ := bind_eq_ok.1 hrun
    obtain ⟨first, hfirst, hrun⟩ := bind_eq_ok.1 hrun
    obtain ⟨s, hs, hrun⟩ := bind_eq_ok.1 hrun
    cases hrun
    obtain ⟨old, new, input, affected, hold, hnew, -, hrequeues⟩ := hsuper _ _ g _ first s hs
    obtain ⟨hvalue, hsuccs⟩ := of_decide_eq_true htest
    rw [hsuccs] at hrequeues
    rw [hnew] at hvalue
    exact ⟨_, g, first, s, rfl, hfirst, hs, old, new, affected, hold, hnew,
      Option.some.inj hvalue, hrequeues⟩

end ObjectFlow
