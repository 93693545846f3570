import ObjectFlow.Proofs.Draining
import ObjectFlow.Proofs.Fixpoint
import ObjectFlow.Proofs.Hierarchy
import ObjectFlow.Proofs.Liveness
import ObjectFlow.Proofs.Results

/-!
# Analyses of accepted programs do not fail

The checks that a program has to pass are all that its analyses rely on. Whatever contexts remember,
and in whatever order pointers are served, a points-to analysis can be started and can take each of
its steps (`State.Safe`), even where it never comes to an end. The calls that the class hierarchy
allows, the graphs of methods and of programs, constants and live variables are found for every
accepted program.
-/

namespace ObjectFlow

namespace PointsTo.State

variable {p : Program} {how : Sensitivity} {extra : List (Place × Place)} {s : State}

/-- A state from which an analysis can go on. -/
structure Safe (p : Program) (how : Sensitivity) (s : State) : Prop extends s.Servable p how where
  /-- The numbers in whatever has been found stand for something. -/
  resolves : ∀ r, s.Finds r → ∃ f, Resolves s.arena r f
  queued : ∀ i ∈ s.pending.queue.toList, ∃ x, s.arena.pointer i = .ok x
  /-- The next step can be taken, unless there is nothing left to do. -/
  step : ∃ limit t, (t = none ↔ s.pending.isEmpty = true) ∧
    ∀ more, limit ≤ more → s.step p how more = .ok t

theorem Grounded.safe (hp : p.Accepted) (hb : s.Balanced) (hs : s.Grounded p how extra) :
    s.Safe p how where
  toServable := servable hp hb hs
  resolves r hr := (hs r hr).imp fun _ => And.left
  queued _ hi := hb.queued hi
  step := by
    cases hempty : s.pending.isEmpty with
    | true => exact ⟨0, none, by simp, fun more _ => step_of_isEmpty hempty more⟩
    | false =>
      obtain ⟨limit, t, ht⟩ := exists_step hp hb hs hempty
      exact ⟨limit, some t, by simp, ht⟩

/-- The calls that a state has found make up a supergraph. -/
theorem Grounded.exists_supergraph (hp : p.Accepted) (hs : s.Grounded p how extra) :
    ∃ g, Supergraph.ofCalls p (s.calls.project (·.2) (·.2)) = .ok g := by
  refine (Supergraph.exists_ofCalls hp fun m hm => ?_).imp fun _ => And.left
  have hm : m ∈ (Result.ofState s false).plainCalls.reachable.toList := hm
  obtain ⟨c, hc⟩ := Result.mem_reachable.1 hm
  exact hs.method_of_reachable hp hc

end PointsTo.State

namespace Program

open PointsTo PointsTo.State

variable {p : Program}

/-- **Safety.** No analysis of an accepted program fails. -/
theorem analyses_succeed (hp : p.Accepted) (how : Sensitivity) :
    (∀ discipline, ∃ limit s, ∀ more, limit ≤ more →
      (initial how discipline).start p how more = .ok s) ∧
    (∀ s, Reaches p how anyExtra s →
      s.Safe p how ∧ ∃ g, Supergraph.ofCalls p (s.calls.project (·.2) (·.2)) = .ok g) ∧
    p.hierarchy.Closed ∧
    (∃ calls g, CallGraph.hierarchical p = .ok calls ∧ Supergraph.ofCalls p calls = .ok g ∧
      ∀ e ∈ calls.edges.toList, e.callee ∈ calls.reachable.toList) ∧
    ∀ m ∈ p.methodIds, (∃ g, ControlFlow.of p m = .ok g) ∧
      (∃ r, Constant.propagate p m = .ok r) ∧ ∃ r, LiveVariables.solve p m = .ok r := by
  refine ⟨exists_start hp how, fun s hs => ?_, hierarchy_closed hp, ?_, fun m hm => ?_⟩
  · obtain ⟨extra, hextra⟩ := exists_extra hp hs
    have hground := grounded_of_reaches hp hextra
    exact ⟨hground.safe hp (balanced_of_reaches hp hs), hground.exists_supergraph hp⟩
  · obtain ⟨calls, hcalls, hmethods, hclosed⟩ := CallGraph.exists_hierarchical hp
    obtain ⟨g, hg, -⟩ := Supergraph.exists_ofCalls hp hmethods
    exact ⟨calls, g, hcalls, hg, hclosed⟩
  · obtain ⟨method, hmethod⟩ := (mem_methodIds hp).1 hm
    obtain ⟨-, constants, -, hconstants, -⟩ := Constant.exists_propagate hp hmethod
    obtain ⟨live, hlive, -⟩ := LiveVariables.exists_solve hp hmethod
    exact ⟨⟨_, Supergraph.of_eq_ok.2 ⟨method, hmethod, rfl⟩⟩, ⟨constants, hconstants⟩, live, hlive⟩

/-- A program in which each object makes another one, and a static method calls itself. -/
def nesting : Model where
  classes := #[{ name := "Main" }, { name := "Nest" }]
  methods := #[
    { owner := ⟨0⟩, name := "main", subsignature := "void main()", isStatic := true,
      returnType := .void,
      body := #[.alloc ⟨0⟩ (.ref ⟨1⟩), .invoke ⟨.static, none, none, ⟨⟨0⟩, "void spin()"⟩, []⟩,
        .invoke ⟨.virtual, none, some ⟨0⟩, ⟨⟨1⟩, "void grow()"⟩, []⟩] },
    { owner := ⟨0⟩, name := "spin", subsignature := "void spin()", isStatic := true,
      returnType := .void,
      body := #[.invoke ⟨.static, none, none, ⟨⟨0⟩, "void spin()"⟩, []⟩] },
    { owner := ⟨1⟩, name := "grow", subsignature := "void grow()", this := some ⟨1⟩,
      returnType := .void,
      body := #[.alloc ⟨2⟩ (.ref ⟨1⟩),
        .invoke ⟨.virtual, none, some ⟨2⟩, ⟨⟨1⟩, "void grow()"⟩, []⟩] }]
  vars := #[⟨⟨0⟩, "outer", .ref ⟨1⟩⟩, ⟨⟨2⟩, "this", .ref ⟨1⟩⟩, ⟨⟨2⟩, "inner", .ref ⟨1⟩⟩]
  entry := ⟨0⟩

theorem nesting_accepted : (Program.index nesting).Accepted := by
  have h : nesting.violations = [] := by decide +kernel
  exact ⟨nesting, by rw [Program.ofModel, h]⟩

/-- The analysis of `nesting` in which contexts remember two objects can go on after twenty steps.
-/
theorem nesting_analyses_succeed :
    (∃ s, Reaches (.index nesting) (.object 2) anyExtra s ∧ s.pending.isEmpty = false ∧
      s.Safe (.index nesting) (.object 2)) ∧
    (∃ calls, CallGraph.hierarchical (.index nesting) = .ok calls) ∧
    ∃ r, LiveVariables.solve (.index nesting) ⟨2⟩ = .ok r := by
  obtain ⟨-, hsafe, -, ⟨calls, -, hcalls, -⟩, hmethods⟩ :=
    analyses_succeed nesting_accepted (.object 2)
  obtain ⟨s, hs, hrun⟩ := exists_ok_of_any
    ((initial (.object 2) .fifo).start (.index nesting) (.object 2) 100)
    (fun s => (State.run (.index nesting) (.object 2) 100 20 s).toOption.any fun r =>
      !r.2.pending.isEmpty) (by decide +kernel)
  obtain ⟨⟨n, t⟩, ht, hpending⟩ := exists_ok_of_any _ _ hrun
  have hreaches : Reaches (.index nesting) (.object 2) anyExtra t := Reaches.run (.start hs) ht
  exact ⟨⟨t, hreaches, by simpa using hpending, (hsafe t hreaches).1⟩, ⟨calls, hcalls⟩,
    (hmethods ⟨2⟩ (by decide)).2.2⟩

end Program

end ObjectFlow
