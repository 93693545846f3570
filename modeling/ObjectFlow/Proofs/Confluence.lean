import Mathlib.Logic.Relation
import Mathlib.Order.WellFounded
import ObjectFlow.Proofs.Counting
import ObjectFlow.Proofs.Draining

/-!
# The order does not matter

Some edges may be added to the flow by hand while an analysis runs. A run is `Finished` when nothing
waits and all these edges are there. By precision and completeness a finished run shows exactly the
facts that can be derived, so all finished runs show the same facts and have the same metrics.

If one run comes to an end, so do all others. The metrics of a finished run bound those of every
other run (`Finished.count_le`), and each move of a run makes progress towards the bound: objects
that arrive are new facts unless the queue gets shorter (`Advances.progress`). The result is
`confluence`.
-/

namespace ObjectFlow.PointsTo.State

variable (p : Program) (how : Sensitivity) (extra : List (Place × Place))

/-- How a run goes on: a waiting pointer is served, or a missing edge is added by hand. -/
inductive Moves (s : State) : State → Prop
  | advance {t} : s.Advances p how t → Moves s t
  | extend {i j x y} : s.arena.pointer i = .ok x → s.arena.pointer j = .ok y →
      Between extra s.arena i j → ¬s.HasFlow i j → Moves s (s.addFlow i j)

/-- Nothing waits, and the edges to be added by hand are there. -/
structure Finished (s : State) : Prop where
  isEmpty : s.pending.isEmpty = true
  added : ∀ q r, (q, r) ∈ extra → s.Shows (.flow q r)

variable {p how extra} {s t f : State}

theorem Moves.reaches (hs : Reaches p how (Between extra) s) (h : Moves p how extra s t) :
    Reaches p how (Between extra) t := by
  cases h with
  | advance ha => exact .step hs ha
  | extend hi hj he _ => exact .addFlow hs hi hj he

theorem reaches_of_moves (hs : Reaches p how (Between extra) s)
    (h : Relation.ReflTransGen (Moves p how extra) s t) : Reaches p how (Between extra) t := by
  induction h with
  | refl => exact hs
  | tail _ hm ih => exact hm.reaches ih

/-! ## Finished runs -/

section Finished

variable (hp : p.Accepted) (hf : Reaches p how (Between extra) f) (hfin : Finished extra f)
include hp hf hfin

/-- A finished run shows exactly what can be derived. -/
theorem Finished.shows_iff_derives {φ : Fact} : f.Shows φ ↔ Derives p how extra φ := by
  have hc := closed_of_reaches hp hf hfin.isEmpty
  have hb := balanced_of_reaches hp hf
  constructor
  · exact (grounded_of_reaches hp hf).derives_of_shows
  · exact shows_of_derives hc hb hfin.isEmpty fun q r he _ _ => hfin.added q r he

/-- The metrics of a finished run bound those of every run. -/
theorem Finished.count_le (hs : s.Grounded p how extra) (k : Aspect) :
    s.metrics.count k ≤ f.metrics.count k := by
  have hb := balanced_of_reaches hp hf
  refine count_le_of_shows fun r hr => ?_
  obtain ⟨φ, hφ, hd⟩ := hs r hr.finds
  obtain ⟨r', hr', hφ'⟩ := (hfin.shows_iff_derives hp hf).2 hd
  refine ⟨φ, r', hφ, ?_, hφ'⟩
  cases r' with
  | holds i o => exact (knows_iff_of_isEmpty hb hfin.isEmpty).1 hr'
  | _ => exact hr'

end Finished

theorem shows_iff_derives_of_isEmpty (hp : p.Accepted) (ht : Reaches p how noExtra t)
    (hend : t.pending.isEmpty = true) {f : Fact} : t.Shows f ↔ Derives p how [] f :=
  Finished.shows_iff_derives hp (ht.mono fun _ _ _ he => he.elim)
    ⟨hend, fun _ _ he => by cases he⟩

/-! ## Runs come to an end -/

/-- Where nothing new arrives, nothing happens but that the queue gets shorter. -/
theorem Serves.eq_of_nil {i : PointerId} {objects : ObjectSet} {rest : Pending}
    (h : s.Serves p how i objects rest [] t) : t = (s.arrival i objects rest).2 := by
  obtain ⟨tasks, limit, hr, hd⟩ := h
  have htasks : tasks = [] := by
    obtain ⟨x, -, hr⟩ := bind_eq_ok.1 hr
    cases x with
    | var c v =>
      obtain ⟨uses, -, hr⟩ := bind_eq_ok.1 hr
      exact (pure_eq_ok.1 hr).symm
    | _ => exact (pure_eq_ok.1 hr).symm
  subst htasks
  cases limit <;> exact (pure_eq_ok.1 hd).symm

theorem pending_arrival_of_nil {i : PointerId} {objects : ObjectSet} {rest : Pending}
    (h : (s.arrival i objects rest).1.toList = []) :
    (s.arrival i objects rest).2.pending = rest := by
  have hempty : (s.arrival i objects rest).1.isEmpty = true := by
    rw [← Std.ExtTreeSet.isEmpty_toList, h]
    rfl
  have hpush : ∀ (targets : List PointerId) (w : Pending),
      targets.foldl (fun w q => w.push q (s.arrival i objects rest).1) w = w := by
    intro targets w
    induction targets with
    | nil => rfl
    | cons q targets ih =>
      rw [List.foldl_cons, Pending.push, if_pos hempty]
      exact ih
  exact hpush _ rest

/-- Objects that arrive are new facts, or else the queue gets shorter. -/
theorem Advances.progress (hp : p.Accepted) (hb : s.Balanced) (h : s.Advances p how t) :
    s.metrics.flowEdges ≤ t.metrics.flowEdges ∧ (s.metrics.facts < t.metrics.facts ∨
      s.metrics.facts ≤ t.metrics.facts ∧
        t.pending.queue.toList.length < s.pending.queue.toList.length) := by
  obtain ⟨i, objects, rest, order, ht, horder, hserves⟩ := h
  have ⟨tasks, limit, _, hd⟩ := hserves
  obtain ⟨hext, hobjects⟩ := drain_extends hp hd
  have hflow : s.metrics.flowEdges ≤ t.metrics.flowEdges := by
    refine count_le_of_stores (k := .flow) fun r hk hr => ?_
    cases r with
    | flow j k => exact hext.flow hr
    | _ => cases hk
  have hholds : ∀ r : Finding, r.aspect = .holds → s.Stores r → t.Stores r := by
    intro r hk hr
    cases r with
    | holds j o =>
      show o ∈ t.arena.objectsOf j
      rw [hobjects]
      exact (mem_objectsOf_arrival hb ht).2 (Or.inl hr)
    | _ => cases hk
  refine ⟨hflow, ?_⟩
  cases hnew : (s.arrival i objects rest).1.toList with
  | nil =>
    rw [hnew, List.perm_nil] at horder
    subst horder
    refine Or.inr ⟨count_le_of_stores (k := .holds) hholds, ?_⟩
    rw [hserves.eq_of_nil, pending_arrival_of_nil hnew, ← ht.perm.length_eq, List.length_cons]
    exact Nat.lt_succ_self _
  | cons o os =>
    have ho : o ∈ (s.arrival i objects rest).1 := by
      rw [← Std.ExtTreeSet.mem_toList, hnew]
      exact List.mem_cons_self
    obtain ⟨harrives, hmissing⟩ := mem_new.1 ho
    refine Or.inl (count_lt_of_stores (k := .holds) hholds (r := .holds i o) rfl ?_ hmissing)
    show o ∈ t.arena.objectsOf i
    rw [hobjects]
    exact (mem_objectsOf_arrival hb ht).2 (Or.inr ⟨rfl, harrives⟩)

theorem flowEdges_addFlow {i j : PointerId} (h : ¬s.HasFlow i j) :
    (s.addFlow i j).metrics.flowEdges = s.metrics.flowEdges + 1 := by
  have hc : ¬s.flow.contains i j = true := fun hc => h (FlowEdges.contains_iff.1 hc)
  show (s.addFlow i j).flow.edges.size = _
  rw [addFlow_eq, if_neg hc]
  show (s.flow.insert i j).edges.size = _
  rw [FlowEdges.edges_insert, Roster.size_insert]
  exact if_neg hc

theorem facts_addFlow {i j : PointerId} {x : Pointer} (hj : s.arena.pointer j = .ok x) :
    s.metrics.facts ≤ (s.addFlow i j).metrics.facts := by
  refine count_le_of_stores (k := .holds) fun r hk hr => ?_
  cases r with
  | holds k o =>
    show o ∈ (s.addFlow i j).arena.objectsOf k
    rw [(addFlow_prepares (i := i) hj).objectsOf]
    exact hr
  | _ => cases hk

/-- How far a run is from the size of a finished one. -/
def distance (f s : State) : Nat :=
  f.metrics.facts + f.metrics.flowEdges - (s.metrics.facts + s.metrics.flowEdges)

section End

variable (hp : p.Accepted) (hf : Reaches p how (Between extra) f) (hfin : Finished extra f)
include hp hf hfin

/-- A move brings a run nearer to its end, or no farther away and with a shorter queue. -/
theorem Moves.decreases (hs : Reaches p how (Between extra) s) (h : Moves p how extra s t) :
    Prod.Lex (· < ·) (· < ·) (f.distance t, t.pending.queue.toList.length)
      (f.distance s, s.pending.queue.toList.length) := by
  have ht := h.reaches hs
  have hfacts : t.metrics.facts ≤ f.metrics.facts :=
    hfin.count_le hp hf (grounded_of_reaches hp ht) .holds
  have hflow : t.metrics.flowEdges ≤ f.metrics.flowEdges :=
    hfin.count_le hp hf (grounded_of_reaches hp ht) .flow
  rw [Prod.lex_def]
  simp only [distance]
  cases h with
  | advance ha =>
    obtain ⟨hle, hlt | ⟨hle', hlt⟩⟩ := ha.progress hp (balanced_of_reaches hp hs)
    · left
      omega
    · omega
  | @extend i j x y hi hj _ hnew =>
    have hadd := flowEdges_addFlow hnew
    have hle := facts_addFlow (i := i) hj
    left
    omega

/-- A run cannot go on for ever. -/
theorem acc_moves (hs : Reaches p how (Between extra) s) :
    Acc (fun u t => Moves p how extra t u) s := by
  have hwf : WellFounded (Prod.Lex (· < ·) (· < ·) : Nat × Nat → Nat × Nat → Prop) :=
    WellFounded.prod_lex wellFounded_lt wellFounded_lt
  induction hd : (f.distance s, s.pending.queue.toList.length) using hwf.induction
    generalizing s with
  | _ d ih =>
  refine Acc.intro s fun t hm => ?_
  subst hd
  exact ih _ (hm.decreases hp hf hfin hs) (hm.reaches hs) rfl

/-- A run that cannot go on is finished. -/
theorem finished_of_no_move (hs : Reaches p how (Between extra) s)
    (hstuck : ∀ t, ¬Moves p how extra s t) : Finished extra s := by
  have hb := balanced_of_reaches hp hs
  have hg := grounded_of_reaches hp hs
  have hempty : s.pending.isEmpty = true := by
    rw [← Bool.not_eq_false]
    intro hne
    obtain ⟨i, objects, rest, hpop⟩ := hb.coherent.exists_pop hne
    have htakes := Pending.pop_takes hpop
    obtain ⟨t, ht⟩ := exists_serves hp hb hg htakes (.refl _)
    exact hstuck t (.advance ⟨i, objects, rest, _, htakes, .refl _, ht⟩)
  refine ⟨hempty, fun q r he => ?_⟩
  refine shows_of_derives (closed_of_reaches hp hs hempty) hb hempty (fun q r he hq hr => ?_)
    ((hfin.shows_iff_derives hp hf).1 (hfin.added q r he))
  obtain ⟨i, hi⟩ := shows_pointer.1 hq
  obtain ⟨j, hj⟩ := shows_pointer.1 hr
  by_cases hij : s.HasFlow i j
  · exact shows_flow.2 ⟨i, j, hi, hj, hij⟩
  · have ⟨x, hx, _⟩ := hi
    have ⟨y, hy, _⟩ := hj
    exact absurd (.extend hx hy ⟨q, r, hi, hj, he⟩ hij) (hstuck _)

/-- Finished runs show the same facts. -/
theorem Finished.shows_iff (hs : Reaches p how (Between extra) s) (hfin' : Finished extra s)
    {φ : Fact} : s.Shows φ ↔ f.Shows φ := by
  rw [hfin'.shows_iff_derives hp hs, hfin.shows_iff_derives hp hf]

theorem Finished.metrics_eq (hs : Reaches p how (Between extra) s) (hfin' : Finished extra s) :
    s.metrics = f.metrics :=
  Metrics.eq_of_count fun k => Nat.le_antisymm (hfin.count_le hp hf (grounded_of_reaches hp hs) k)
    (hfin'.count_le hp hs (grounded_of_reaches hp hf) k)

end End

/-- An edge between the two boxes of `boxes`, in the context of `main`. -/
def boxEdge : List (Place × Place) :=
  [(.var (Sensitivity.object 1).startHistory ⟨0⟩, .var (Sensitivity.object 1).startHistory ⟨1⟩)]

/-- Both boxes have pointers in the context of `main`. -/
def hasBoxes (s : State) : Bool :=
  decide (s.arena.contexts.get? 0 = some (Sensitivity.object 1).start) &&
    decide (s.arena.pointers.get? 0 = some (.var ⟨0⟩ ⟨0⟩)) &&
    decide (s.arena.pointers.get? 1 = some (.var ⟨0⟩ ⟨1⟩))

theorem points_of_hasBoxes (h : s.hasBoxes = true) :
    s.arena.Points ⟨0⟩ (.var (Sensitivity.object 1).startHistory ⟨0⟩) ∧
      s.arena.Points ⟨1⟩ (.var (Sensitivity.object 1).startHistory ⟨1⟩) := by
  simp only [hasBoxes, Bool.and_eq_true, decide_eq_true_eq] at h
  obtain ⟨⟨hc, h₀⟩, h₁⟩ := h
  have hmain : s.arena.Recalls ⟨0⟩ (Sensitivity.object 1).startHistory :=
    ⟨_, Arena.context_eq_ok.2 hc, Arena.tells_start⟩
  exact ⟨⟨_, Arena.pointer_eq_ok.2 h₀, .var ⟨0⟩ hmain⟩,
    ⟨_, Arena.pointer_eq_ok.2 h₁, .var ⟨1⟩ hmain⟩⟩

theorem exists_finished_boxes :
    ∃ f, Reaches (.index boxes) (.object 1) (Between boxEdge) f ∧ Finished boxEdge f := by
  obtain ⟨s, hs, htest⟩ := exists_ok_of_any
    ((initial (.object 1) .lifo).start (.index boxes) (.object 1) 100)
    (fun s => s.hasBoxes &&
      (State.run (.index boxes) (.object 1) 100 100 (s.addFlow ⟨0⟩ ⟨1⟩)).toOption.any fun r =>
        r.2.pending.isEmpty && r.2.hasBoxes && r.2.flow.contains ⟨0⟩ ⟨1⟩) (by decide +kernel)
  obtain ⟨hboxes, hrun⟩ := Bool.and_eq_true_iff.1 htest
  obtain ⟨⟨n, f⟩, hf, hend⟩ := exists_ok_of_any _ _ hrun
  simp only [Bool.and_eq_true] at hend
  obtain ⟨⟨hempty, hboxes'⟩, hflow⟩ := hend
  obtain ⟨hbox, hitem⟩ := points_of_hasBoxes hboxes
  obtain ⟨hbox', hitem'⟩ := points_of_hasBoxes hboxes'
  have ⟨x, hx, _⟩ := hbox
  have ⟨y, hy, _⟩ := hitem
  have hedge : Reaches (.index boxes) (.object 1) (Between boxEdge) (s.addFlow ⟨0⟩ ⟨1⟩) :=
    .addFlow (.start hs) hx hy ⟨_, _, hbox, hitem, List.mem_singleton.2 rfl⟩
  refine ⟨f, Reaches.run hedge hf, hempty, fun q r he => ?_⟩
  obtain ⟨rfl, rfl⟩ := Prod.mk.inj (List.mem_singleton.1 he)
  exact shows_flow.2 ⟨_, _, hbox', hitem', FlowEdges.contains_iff.1 hflow⟩

/-- **Confluence.** Suppose that one run is finished. Another run of the same program may be
continued in any way: it cannot go on for ever, whatever it serves next and in whichever order
objects react the step succeeds, and when it cannot go on it is finished. It then shows the same
facts, and all metrics are the same. -/
theorem confluence (hp : p.Accepted) (hf : Reaches p how (Between extra) f)
    (hfin : Finished extra f) (hs : Reaches p how (Between extra) s) :
    Acc (fun u t => Moves p how extra t u) s ∧
      ∀ t, Relation.ReflTransGen (Moves p how extra) s t →
        (∀ i objects rest order, t.pending.Takes i objects rest →
          order.Perm (t.arrival i objects rest).1.toList →
          ∃ u, t.Serves p how i objects rest order u) ∧
        ((∀ u, ¬Moves p how extra t u) → Finished extra t) ∧
        (Finished extra t → (∀ φ, t.Shows φ ↔ f.Shows φ) ∧ t.metrics = f.metrics) := by
  refine ⟨acc_moves hp hf hfin hs, fun t hst => ?_⟩
  have ht := reaches_of_moves hs hst
  refine ⟨fun i objects rest order htakes horder => ?_, finished_of_no_move hp hf hfin ht,
    fun hfin' => ⟨fun φ => hfin.shows_iff hp hf ht hfin', hfin.metrics_eq hp hf ht hfin'⟩⟩
  exact exists_serves hp (balanced_of_reaches hp ht) (grounded_of_reaches hp ht) htakes horder

/-- A run that takes pointers in another order and has not added the edge yet. -/
theorem boxes_confluence :
    ∃ f s, Reaches (.index boxes) (.object 1) (Between boxEdge) f ∧ Finished boxEdge f ∧
      Reaches (.index boxes) (.object 1) (Between boxEdge) s ∧ s.pending.isEmpty = false ∧
      Acc (fun u t => Moves (.index boxes) (.object 1) boxEdge t u) s ∧
      ∀ t, Relation.ReflTransGen (Moves (.index boxes) (.object 1) boxEdge) s t →
        (∀ u, ¬Moves (.index boxes) (.object 1) boxEdge t u) →
        (∀ φ, t.Shows φ ↔ f.Shows φ) ∧ t.metrics = f.metrics := by
  obtain ⟨f, hf, hfin⟩ := exists_finished_boxes
  obtain ⟨s, hs, hrun⟩ := exists_ok_of_any
    ((initial (.object 1) .fifo).start (.index boxes) (.object 1) 100)
    (fun s => (State.run (.index boxes) (.object 1) 100 1 s).toOption.any fun r =>
      !r.2.pending.isEmpty) (by decide +kernel)
  obtain ⟨⟨n, t⟩, ht, hwaits⟩ := exists_ok_of_any _ _ hrun
  have hreaches : Reaches (.index boxes) (.object 1) (Between boxEdge) t :=
    Reaches.run (.start hs) ht
  obtain ⟨hacc, hall⟩ := confluence boxes_accepted hf hfin hreaches
  refine ⟨f, t, hf, hfin, hreaches, by simpa using hwaits, hacc, fun u hu hstuck => ?_⟩
  obtain ⟨-, hend, hsame⟩ := hall u hu
  exact hsame (hend hstuck)

end ObjectFlow.PointsTo.State
