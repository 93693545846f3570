import ObjectFlow.Proofs.ProgramPropagation

/-!
# What is reported about definitions

Every numeric definition in a reachable method is reported once, with the value of its variable in
the fact behind the statement (`exists_definitions`). For all statements but calls this value admits
whatever number the statement leaves in the variable (`definitions_admit`), if the entry method has
not been given any object. The node of a call assigns nothing, since the result arrives where the
caller goes on. So what is reported for a call is what was known about the variable before the call,
and may have nothing to do with the result (`keeping_misreported`).
-/

namespace ObjectFlow

namespace Computation

open Execution Constant PointsTo

/-- In some execution among objects that were there before, a statement completes and leaves a
number in a variable. A call completes when the method that has been called goes back. -/
inductive Leaves (p : Program) (objects : List Instance) (site : StmtId) (v : VarId) (x : Int32) :
    Prop
  | simple {m : Machine} {f : Frame} : Arises p objects m → f ∈ m.frames →
      f.point = .behind (.stmt site) → f.locals v = .num x → Leaves p objects site v x
  | call {callee caller f : Frame} {fs : List Frame} {h h' : Store} :
      Arises p objects ⟨callee :: caller :: fs, h⟩ → caller.point = .before (.stmt site) →
      Step p ⟨callee :: caller :: fs, h⟩ ⟨f :: fs, h'⟩ → f.locals v = .num x →
      Leaves p objects site v x

variable {p : Program} {objects : List Instance} {site : StmtId} {lhs : VarId} {x : Int32}
  {s : Stmt} {sol : Solution Node ConstFact} {methods : List MethodId}

/-- Only a call completes by a return. -/
theorem exists_behind_of_leaves (h : Leaves p objects site lhs x) (hst : p.stmt site = .ok s)
    (hcall : s.call? = none) :
    ∃ m f, Arises p objects m ∧ f ∈ m.frames ∧ f.point = .behind (.stmt site) ∧
      f.locals lhs = .num x := by
  cases h with
  | simple hm hf hpoint hx => exact ⟨_, _, hm, hf, hpoint, hx⟩
  | call _ hpoint hstep =>
    cases hstep with
    | leave hinvoke =>
      cases hpoint
      cases hst.symm.trans hinvoke
      cases hcall

/-- The numeric variable that a statement defines. -/
def numericDefinition (p : Program) : StmtId × Stmt → Except Fault (Option (StmtId × VarId))
  | (site, s) => do
    match s.defined with
    | some lhs => return if ← p.holdsInt lhs then some (site, lhs) else none
    | none => return none

theorem numericDefinition_eq_some {e : StmtId × VarId} :
    numericDefinition p (site, s) = .ok (some e) ↔
      s.defined = some e.2 ∧ p.holdsInt e.2 = .ok true ∧ site = e.1 := by
  simp only [numericDefinition]
  cases hd : s.defined with
  | none => simp [pure, Except.pure]
  | some lhs =>
    simp only [bind_eq_ok, pure_eq_ok, Option.some.injEq]
    constructor
    · rintro ⟨b, hb, heq⟩
      cases b with
      | true => cases heq; exact ⟨rfl, hb, rfl⟩
      | false => cases heq
    · rintro ⟨rfl, hb, rfl⟩
      exact ⟨true, hb, rfl⟩

theorem exists_numericDefinition (hp : p.Accepted) (hst : p.stmt site = .ok s) :
    ∃ e, numericDefinition p (site, s) = .ok e := by
  simp only [numericDefinition]
  cases hd : s.defined with
  | none => exact ⟨none, rfl⟩
  | some lhs =>
    obtain ⟨b, hb⟩ := (Program.declares_defined hp hst hd).holdsInt
    exact ⟨_, bind_eq_ok.2 ⟨b, hb, rfl⟩⟩

theorem mem_stmts_of_mapM (hp : p.Accepted) {ms : List Method}
    (hms : methods.mapM p.method = .ok ms)
    (hmethods : ∀ m ∈ methods, ∃ method, p.method m = .ok method) :
    (site, s) ∈ ms.flatMap (·.stmts) ↔ site.method ∈ methods ∧ p.stmt site = .ok s := by
  rw [List.mem_flatMap]
  constructor
  · rintro ⟨method, hmethod, hs⟩
    obtain ⟨m, hm, hmethod⟩ := (mem_of_mapM hms).1 hmethod
    obtain ⟨rfl, hst⟩ := (Program.mem_stmts hp hmethod).1 hs
    exact ⟨hm, hst⟩
  · rintro ⟨hm, hst⟩
    obtain ⟨method, hmethod⟩ := hmethods _ hm
    exact ⟨method, (mem_of_mapM hms).2 ⟨_, hm, hmethod⟩,
      (Program.mem_stmts hp hmethod).2 ⟨rfl, hst⟩⟩

/-- What is reported are the numeric definitions of the methods, with the values of the facts behind
them. -/
theorem exists_definitions (hp : p.Accepted)
    (hmethods : ∀ m ∈ methods, ∃ method, p.method m = .ok method) :
    ∃ defs, definitions p methods sol = .ok defs ∧ ∀ site lhs value, (site, lhs, value) ∈ defs ↔
      site.method ∈ methods ∧ (∃ s, p.stmt site = .ok s ∧ s.defined = some lhs) ∧
        p.holdsInt lhs = .ok true ∧
        ∃ fact, sol.outFacts[Node.stmt site]? = some fact ∧ fact.get lhs = value := by
  obtain ⟨ms, hms⟩ := exists_mapM hmethods
  have hstmts : ∀ {site s}, (site, s) ∈ ms.flatMap (·.stmts) ↔
      site.method ∈ methods ∧ p.stmt site = .ok s := mem_stmts_of_mapM hp hms hmethods
  obtain ⟨numeric, hnumeric, hmem⟩ := exists_filterMapM (f := numericDefinition p)
    fun e (he : e ∈ ms.flatMap (·.stmts)) => exists_numericDefinition hp (hstmts.1 he).2
  refine ⟨_, bind_eq_ok.2 ⟨ms, hms, bind_eq_ok.2 ⟨numeric, hnumeric, rfl⟩⟩,
    fun site lhs value => ?_⟩
  simp only [List.mem_filterMap, hmem, Option.map_eq_some_iff]
  constructor
  · rintro ⟨e, ⟨⟨site', s⟩, hs, hdef⟩, fact, hfact, heq⟩
    obtain ⟨hd, hint, rfl⟩ := numericDefinition_eq_some.1 hdef
    cases heq
    obtain ⟨hm, hst⟩ := hstmts.1 hs
    exact ⟨hm, ⟨s, hst, hd⟩, hint, fact, hfact, rfl⟩
  · rintro ⟨hm, ⟨s, hst, hd⟩, hint, fact, hfact, rfl⟩
    exact ⟨(site, lhs), ⟨(site, s), hstmts.2 ⟨hm, hst⟩,
      numericDefinition_eq_some.2 ⟨hd, hint, rfl⟩⟩, fact, hfact, rfl⟩

/-- **Reported values.** After any points-to analysis that has come to its end, each numeric
definition in a reachable method is reported with one value. Take executions that start with any
numbers in the parameters of the entry method, but with no reference in them and no object. Unless
the statement is a call, the value is not constant or the very number that the statement leaves in
the variable. For a call, it is the value of the variable before the call. -/
theorem definitions_admit (hp : p.Accepted) {r : Result} (hr : r.IsOutcome p) :
    ∃ sol defs, propagateProgram p r = .ok sol ∧
      definitions p r.plainCalls.reachable.toList sol = .ok defs ∧
      ∀ site s lhs, site.method ∈ r.plainCalls.reachable.toList → p.stmt site = .ok s →
        s.defined = some lhs → p.holdsInt lhs = .ok true →
        ∃ value, (∀ value', (site, lhs, value') ∈ defs ↔ value' = value) ∧
          (s.call? = none → ∀ x, Leaves p [] site lhs x → value = .nac ∨ value = .const x) ∧
          (s.call? ≠ none → ∃ fact, factAt sol (.before (.stmt site)) = some fact ∧
            value = fact.get lhs ∧ ∀ m f x, Arises p [] m → f ∈ m.frames →
              f.point = .before (.stmt site) → f.locals lhs = .num x →
                value = .nac ∨ value = .const x) := by
  obtain ⟨a, g, heap, sol, hcoherent, hg, hsol, hsolved, hknown⟩ := exists_known hp hr
  obtain ⟨defs, hdefs, hmem⟩ := exists_definitions hp fun m => hcoherent.methods
  refine ⟨sol, defs, hsol, hdefs, fun site s lhs hreach hst hd hint => ?_⟩
  have hnode := hg.stmt_mem hp hcoherent hreach hst
  obtain ⟨before, behind, hbefore, hbehind, -⟩ := hsolved.node hnode
  refine ⟨behind.get lhs, fun value' => ?_, fun hcall x hleaves => ?_, fun hcall => ?_⟩
  · rw [hmem]
    constructor
    · rintro ⟨-, -, -, fact, hfact, rfl⟩
      cases hbehind.symm.trans hfact
      rfl
    · rintro rfl
      exact ⟨hreach, ⟨s, hst, hd⟩, hint, behind, hbehind, rfl⟩
  · obtain ⟨m, f, harises, hf, hpoint, hx⟩ := exists_behind_of_leaves hleaves hst hcall
    exact (hknown m harises f hf).admits (by rw [hpoint]; exact hbehind) hx
  · obtain ⟨call, rfl⟩ : ∃ call, s = .invoke call := by
      cases s <;> simp_all [Stmt.call?]
    cases (outFacts_of_call hsolved hnode hst hbefore).symm.trans hbehind
    exact ⟨before, hbefore, rfl, fun m f x harises hf hpoint hx =>
      (hknown m harises f hf).admits (by rw [hpoint]; exact hbefore) hx⟩

/-- When `main` in `keeping` has read the box, what is reported admits the number that it got. -/
theorem keeping_definitions_admit :
    (Program.index keeping).Accepted ∧ ∃ r sol defs value, r.IsOutcome (.index keeping) ∧
      propagateProgram (.index keeping) r = .ok sol ∧
      definitions (.index keeping) r.plainCalls.reachable.toList sol = .ok defs ∧
      (⟨⟨0⟩, 3⟩, ⟨2⟩, value) ∈ defs ∧ Leaves (.index keeping) [] ⟨⟨0⟩, 3⟩ ⟨2⟩ 1 ∧
      (value = .nac ∨ value = .const 1) := by
  obtain ⟨r, hr, hreach⟩ := exists_ok_of_any (analyze (.index keeping) {} 100)
    (fun r => decide (⟨0⟩ ∈ r.plainCalls.reachable.toList)) (by decide +kernel)
  have hr := Result.isOutcome_of_analyze hr
  have hload : (Program.index keeping).stmt ⟨⟨0⟩, 3⟩ =
      .ok (.loadField ⟨2⟩ ⟨some ⟨0⟩, ⟨0⟩⟩) := rfl
  have hleaves : Leaves (.index keeping) [] ⟨⟨0⟩, 3⟩ ⟨2⟩ 1 :=
    .simple afterLoad_arises List.mem_cons_self rfl rfl
  obtain ⟨sol, defs, hsol, hdefs, h⟩ := definitions_admit keeping_accepted hr
  obtain ⟨value, hmem, hadmits, -⟩ := h _ _ _ (of_decide_eq_true hreach) hload rfl rfl
  exact ⟨keeping_accepted, r, sol, defs, value, hr, hsol, hdefs, (hmem value).2 rfl, hleaves,
    hadmits rfl 1 hleaves⟩

/-- A call that leaves two in its variable is reported with the one that was there before. -/
theorem keeping_misreported :
    (Program.index keeping).Accepted ∧ ∃ r sol defs, r.IsOutcome (.index keeping) ∧
      propagateProgram (.index keeping) r = .ok sol ∧
      definitions (.index keeping) r.plainCalls.reachable.toList sol = .ok defs ∧
      Leaves (.index keeping) [] ⟨⟨0⟩, 2⟩ ⟨1⟩ 2 ∧ (⟨⟨0⟩, 2⟩, ⟨1⟩, .const 1) ∈ defs := by
  obtain ⟨⟨r, sol, defs⟩, h, hmem⟩ := exists_ok_of_any
    (do
      let r ← analyze (.index keeping) {} 100
      let sol ← propagateProgram (.index keeping) r
      return (r, sol, ← definitions (.index keeping) r.plainCalls.reachable.toList sol))
    (fun found => decide ((⟨⟨0⟩, 2⟩, ⟨1⟩, .const 1) ∈ found.2.2)) (by decide +kernel)
  obtain ⟨r', hr, h⟩ := bind_eq_ok.1 h
  obtain ⟨sol', hsol, h⟩ := bind_eq_ok.1 h
  obtain ⟨defs', hdefs, h⟩ := bind_eq_ok.1 h
  cases h
  exact ⟨keeping_accepted, r, sol, defs, Result.isOutcome_of_analyze hr, hsol, hdefs,
    .call atReturn_arises rfl afterReturn_step rfl, of_decide_eq_true hmem⟩

end Computation

end ObjectFlow
