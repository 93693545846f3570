import ObjectFlow.Proofs.Safety
import ObjectFlow.Proofs.Termination

/-!
# Objects that remember objects

Where contexts remember two objects or more, an object can be told by another one, which is told by
yet another one, and so on. A limit on the number of elements of a context does not limit how deep
they are nested (`Origin.depth`), and nothing else does: a method that makes an object and calls
itself on it makes ever deeper ones (`nesting_endless`). The analysis ends, whichever pointer is
served at each step, exactly if objects are nested to a bounded depth (`objectRuns_end_tfae`).
-/

namespace ObjectFlow

mutual

/-- How deep objects are nested in an origin. -/
def Origin.depth : Origin → Nat
  | .site _ | .type _ => 0
  | .object _ _ _ _ context => Origin.maxDepth context + 1

/-- The greatest depth of the elements of a context. -/
def Origin.maxDepth : List Origin → Nat
  | [] => 0
  | x :: rest => max x.depth (Origin.maxDepth rest)

end

theorem Origin.depth_le_maxDepth {x : Origin} :
    ∀ {xs : List Origin}, x ∈ xs → x.depth ≤ Origin.maxDepth xs
  | y :: xs, h => by
    rw [Origin.maxDepth]
    rcases List.mem_cons.1 h with rfl | h
    · exact Nat.le_max_left ..
    · exact (depth_le_maxDepth h).trans (Nat.le_max_right ..)

/-- The elements of its context are nested less deep than an object. -/
theorem ObjectOrigin.depth_lt {o : ObjectOrigin} {x : Origin} (h : x ∈ o.context.items) :
    x.depth < o.origin.depth := by
  rw [origin, Origin.depth]
  exact Nat.lt_succ_of_le (Origin.depth_le_maxDepth h)

namespace PointsTo

variable {p : Program} {how : Sensitivity} {k : Nat}

/-! ## What contexts remember -/

/-- The objects that a context may remember. -/
def memories (p : Program) (k : Nat) : Set Origin :=
  ObjectOrigin.origin '' {o | Derives p (.object k) [] (.object o)}

/-- Objects come from the program, and contexts remember objects in use. -/
def Rooted (p : Program) (k : Nat) : Fact → Prop
  | .context c | .reachable c _ => c.Within (memories p k) k
  | .object o | .holds _ o => o.context.Within (memories p k) k ∧ Declared p o
  | .call e => e.callee.1.Within (memories p k) k
  | .pointer _ | .flow .. => True

theorem Derives.rooted {f : Fact} (h : Derives p (.object k) [] f) : Rooted p k f := by
  induction h with
  | entry => exact .empty (Nat.le_refl k)
  | alloc _ hst hm ihr => exact ⟨ihr.newest _, declared_alloc hst hm⟩
  | staticCall _ _ _ _ ihr => exact ihr
  | instanceCall _ _ _ ho _ _ iho => exact iho.1.push ⟨_, ho.objectOfHolds, rfl⟩
  | this _ _ _ _ _ _ _ _ iho => exact iho
  | callee _ ih => exact ih
  | propagate _ _ _ iho => exact iho
  | contextOfMethod _ ih => exact ih
  | contextOfObject _ ih => exact ih.1
  | objectOfHolds _ ih => exact ih
  | _ => trivial

/-- Finitely many objects make finitely many contexts. -/
theorem finite_contexts (h : {o | Derives p (.object k) [] (.object o)}.Finite) :
    {c | Derives p (.object k) [] (.context c)}.Finite :=
  (Recent.finite_within (h.image ObjectOrigin.origin) k).subset fun _ hc => hc.rooted

/-- Objects of a given depth are told by finitely many of lesser depth. -/
theorem finite_objects_depth_le (p : Program) (k depth : Nat) :
    {o | Derives p (.object k) [] (.object o) ∧ o.origin.depth ≤ depth}.Finite := by
  induction depth with
  | zero =>
    refine Set.finite_empty.subset ?_
    rintro o ⟨-, hdepth⟩
    rw [ObjectOrigin.origin, Origin.depth] at hdepth
    omega
  | succ depth ih =>
    refine (finite_declared p (Recent.finite_within (ih.image ObjectOrigin.origin) k)).subset ?_
    rintro o ⟨ho, hdepth⟩
    refine ⟨ho.rooted.2, ho.rooted.1.1, fun x hx => ?_⟩
    obtain ⟨inner, hinner, rfl⟩ := ho.rooted.1.2 x hx
    have hlt := ObjectOrigin.depth_lt hx
    exact ⟨inner, ⟨hinner, by omega⟩, rfl⟩

theorem finite_objects_of_depth {depth : Nat}
    (h : ∀ o, Derives p (.object k) [] (.object o) → o.origin.depth ≤ depth) :
    {o | Derives p (.object k) [] (.object o)}.Finite :=
  (finite_objects_depth_le p k depth).subset fun o ho => ⟨ho, h o ho⟩

namespace State

variable {s : State}

/-- Where nothing waits, all objects that can be derived have numbers. -/
theorem finite_objects_of_isEmpty (hp : p.Accepted) (hs : Reaches p how noExtra s)
    (hend : s.pending.isEmpty = true) : {o | Derives p how [] (.object o)}.Finite := by
  have hspelled : ∀ i, {o | s.arena.Spells i o}.Finite := fun i =>
    Set.Subsingleton.finite fun o ho o' ho' => ho.unique ho'
  refine ((Id.finite_lt .objects s.arena.objects.size).biUnion fun i _ => hspelled i).subset ?_
  intro o ho
  obtain ⟨i, hi⟩ := shows_object.1 ((shows_iff_derives_of_isEmpty hp hs hend).2 ho)
  obtain ⟨obj, hobj, -⟩ := Arena.spells_iff.1 hi
  have hlt := exists_get?_iff_lt.1 ⟨obj, Arena.object_eq_ok.1 hobj⟩
  exact Set.mem_biUnion (show i ∈ {i | i.index < _} from hlt) hi

theorem exists_depth_le_of_isEmpty (hp : p.Accepted) (hs : Reaches p how noExtra s)
    (hend : s.pending.isEmpty = true) :
    ∃ depth, ∀ o, Derives p how [] (.object o) → o.origin.depth ≤ depth := by
  have hfinite := finite_objects_of_isEmpty hp hs hend
  obtain ⟨depth, hdepth⟩ := (hfinite.image fun o => o.origin.depth).bddAbove
  exact ⟨depth, fun o ho => hdepth ⟨o, ho, rfl⟩⟩

/-- If no run comes to an end, there is one without end. -/
theorem exists_endless (hp : p.Accepted)
    (h : ∀ s, Reaches p how noExtra s → s.pending.isEmpty = false) :
    ∃ states : Nat → State, Reaches p how noExtra (states 0) ∧
      ∀ n, (states n).Advances p how (states (n + 1)) := by
  have hnext : ∀ s : {s // Reaches p how noExtra s},
      ∃ t : {s // Reaches p how noExtra s}, s.1.Advances p how t.1 := by
    rintro ⟨s, hs⟩
    obtain ⟨limit, t, hstep⟩ :=
      exists_step hp (balanced_of_reaches hp hs) (grounded_of_noExtra hp hs) (h s hs)
    have hadvances := advances_of_step (hstep limit (Nat.le_refl limit))
    exact ⟨⟨t, hs.step hadvances⟩, hadvances⟩
  choose next hadvances using hnext
  obtain ⟨limit, s, hstart⟩ := exists_start hp how .fifo
  have hs : Reaches p how noExtra s := .start (hstart limit (Nat.le_refl limit))
  refine ⟨fun n => (next^[n] ⟨s, hs⟩).1, hs, fun n => ?_⟩
  show (next^[n] ⟨s, hs⟩).1.Advances p how (next^[n + 1] ⟨s, hs⟩).1
  rw [Function.iterate_succ_apply']
  exact hadvances _

/-- **When an analysis with objects as contexts ends.** The following are the same: there is a bound
on the number of steps of all runs, whichever pointer each step serves; solving succeeds under every
discipline; some run comes to a state in which nothing waits; finitely many facts can be derived;
objects are nested to a bounded depth. -/
theorem objectRuns_end_tfae (hp : p.Accepted) (k : Nat) : List.TFAE [
    ∃ bound, ∀ (states : Nat → State) n, Reaches p (.object k) noExtra (states 0) →
      (∀ i < n, (states i).Advances p (.object k) (states (i + 1))) → n ≤ bound,
    ∀ discipline, ∃ limit s, s.pending.isEmpty = true ∧ ∀ more, limit ≤ more →
      (initial (.object k) discipline).solve p (.object k) more = .ok s,
    ∃ s, Reaches p (.object k) noExtra s ∧ s.pending.isEmpty = true,
    {f | Derives p (.object k) [] f}.Finite,
    ∃ depth, ∀ o, Derives p (.object k) [] (.object o) → o.origin.depth ≤ depth] := by
  tfae_have 1 → 3 := by
    rintro ⟨bound, hbound⟩
    by_contra hnone
    obtain ⟨states, hstart, hsteps⟩ := exists_endless hp fun s hs =>
      Bool.eq_false_of_not_eq_true fun hend => hnone ⟨s, hs, hend⟩
    have hle := hbound states (bound + 1) hstart fun i _ => hsteps i
    omega
  tfae_have 2 → 3 := by
    intro hsolve
    obtain ⟨limit, s, hend, hs⟩ := hsolve .fifo
    exact ⟨s, (reaches_of_solve (hs limit (Nat.le_refl limit))).1, hend⟩
  tfae_have 3 → 5 := by
    rintro ⟨s, hs, hend⟩
    exact exists_depth_le_of_isEmpty hp hs hend
  tfae_have 5 → 4 := by
    rintro ⟨depth, hdepth⟩
    have hobjects := finite_objects_of_depth hdepth
    exact finite_derives_of_finite (finite_contexts hobjects) hobjects hp
  tfae_have 4 → 1 := by
    intro hfinite
    obtain ⟨bound, hbound⟩ := exists_count_le_of_finite hfinite
    exact ⟨_, fun states n => length_le hp hbound⟩
  tfae_have 4 → 2 := by
    intro hfinite
    obtain ⟨bound, hbound⟩ := exists_count_le_of_finite hfinite
    exact exists_solve hp hbound
  tfae_finish

/-- In `boxes` no object makes another one, so runs are bounded although contexts remember two
objects. -/
theorem boxes_objectRuns_end :
    (∃ s, (initial (.object 2) .lifo).solve (.index boxes) (.object 2) 100 = .ok s) ∧
    ∃ bound, ∀ (states : Nat → State) n,
      Reaches (.index boxes) (.object 2) noExtra (states 0) →
      (∀ i < n, (states i).Advances (.index boxes) (.object 2) (states (i + 1))) → n ≤ bound := by
  obtain ⟨s, hs, -⟩ := exists_ok_of_any
    ((initial (.object 2) .lifo).solve (.index boxes) (.object 2) 100) (fun _ => true)
    (by decide +kernel)
  have hbound := (objectRuns_end_tfae boxes_accepted 2).out 2 0
  exact ⟨⟨s, hs⟩, hbound.1 ⟨s, reaches_of_solve hs⟩⟩

/-! ## An analysis without end -/

/-- A method of `nesting` that makes an object and calls `grow` on it lets `grow` run on an object
that remembers what the method remembers. -/
theorem nesting_grows {c : History} {m : MethodId} {i j : Nat} {x : VarId} {method : Method}
    (hr : Derives (.index Program.nesting) (.object k) [] (.reachable c m))
    (hm : (Program.index Program.nesting).method m = .ok method)
    (halloc : (Program.index Program.nesting).stmt ⟨m, i⟩ = .ok (.alloc x (.ref ⟨1⟩)))
    (hcall : (Program.index Program.nesting).stmt ⟨m, j⟩ =
      .ok (.invoke ⟨.virtual, none, some x, ⟨⟨1⟩, "void grow()"⟩, []⟩)) :
    ∃ o : ObjectOrigin, o.context = c.newest (c.limit - 1) ∧
      Derives (.index Program.nesting) (.object k) [] (.object o) ∧
      Derives (.index Program.nesting) (.object k) []
        (.reachable (o.context.push o.origin) ⟨2⟩) := by
  have hholds := Derives.alloc hr halloc hm
  have hfound : (Program.index Program.nesting).hierarchy.callee (some ⟨1⟩)
      ⟨.virtual, none, some x, ⟨⟨1⟩, "void grow()"⟩, []⟩ = .ok (some ⟨2⟩) := by
    show (Program.index Program.nesting).hierarchy.dispatch ⟨1⟩ "void grow()" = .ok (some ⟨2⟩)
    decide +kernel
  exact ⟨_, rfl, hholds.objectOfHolds, (Derives.instanceCall hr hcall rfl hholds hfound).callee⟩

/-- Objects of `nesting` are nested to any depth. -/
theorem nesting_exists_depth (hk : 2 ≤ k) (n : Nat) :
    ∃ o : ObjectOrigin, n ≤ o.origin.depth ∧
      Derives (.index Program.nesting) (.object k) [] (.object o) ∧
      Derives (.index Program.nesting) (.object k) []
        (.reachable (o.context.push o.origin) ⟨2⟩) := by
  induction n with
  | zero =>
    obtain ⟨o, -, ho⟩ := nesting_grows (i := 0) (j := 2) (k := k) .entry rfl rfl rfl
    exact ⟨o, Nat.zero_le _, ho⟩
  | succ n ih =>
    obtain ⟨o, hdepth, ho, hr⟩ := ih
    obtain ⟨outer, hcontext, houter⟩ := nesting_grows (i := 0) (j := 1) hr rfl rfl rfl
    have hlimit : o.context.limit = k := ho.limits
    -- The receiver is the newest element, so it stays when the oldest one is dropped.
    have hmem : o.origin ∈ outer.context.items := by
      obtain ⟨k, rfl⟩ := Nat.exists_eq_add_of_le' hk
      simp [hcontext, hlimit]
    have hlt := ObjectOrigin.depth_lt hmem
    exact ⟨outer, by omega, houter⟩

/-- Where contexts remember two objects or more, no run of `nesting` comes to an end, there is one
without end, and solving never succeeds. -/
theorem nesting_endless :
    (Program.index Program.nesting).Accepted ∧ ∀ k, 2 ≤ k →
      (∀ s, Reaches (.index Program.nesting) (.object k) noExtra s → s.pending.isEmpty = false) ∧
      (∃ states : Nat → State, Reaches (.index Program.nesting) (.object k) noExtra (states 0) ∧
        ∀ n, (states n).Advances (.index Program.nesting) (.object k) (states (n + 1))) ∧
      ∀ discipline limit s,
        (initial (.object k) discipline).solve (.index Program.nesting) (.object k) limit ≠
          .ok s := by
  refine ⟨Program.nesting_accepted, fun k hk => ?_⟩
  have hwaits : ∀ s, Reaches (.index Program.nesting) (.object k) noExtra s →
      s.pending.isEmpty = false := by
    intro s hs
    by_contra hend
    obtain ⟨depth, hdepth⟩ :=
      exists_depth_le_of_isEmpty Program.nesting_accepted hs (by simpa using hend)
    obtain ⟨o, hlt, ho, -⟩ := nesting_exists_depth hk (depth + 1)
    have hle := hdepth o ho
    omega
  refine ⟨hwaits, exists_endless Program.nesting_accepted hwaits, fun discipline limit s hs => ?_⟩
  obtain ⟨hreaches, hend⟩ := reaches_of_solve hs
  rw [hwaits s hreaches] at hend
  cases hend

end State

end PointsTo

end ObjectFlow
