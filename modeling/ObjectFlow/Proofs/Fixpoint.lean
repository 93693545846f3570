import ObjectFlow.Proofs.Precision

/-!
# What holds at the fixpoint

When nothing waits any more all rules of the analysis hold, edges added by hand included, and
`check` confirms it. The rules themselves come from closure. That `check` never stumbles over an
unknown number comes from precision: a run adds finitely many edges by hand, so it is one of the
runs with a list of such edges (`exists_extra`), and everything that such a run finds fits the
program.
-/

namespace ObjectFlow.PointsTo.State

variable {p : Program} {how : Sensitivity} {extra : List (Place × Place)} {s : State}

/-! ## Edges added by hand -/

theorem Between.mono {extra' : List (Place × Place)} (he : ∀ x ∈ extra, x ∈ extra') {a : Arena}
    {i j : PointerId} : Between extra a i j → Between extra' a i j := by
  rintro ⟨q, r, hi, hj, hqr⟩
  exact ⟨q, r, hi, hj, he _ hqr⟩

theorem Grounded.exists_points (hs : s.Grounded p how extra) {i : PointerId} {x : Pointer}
    (hi : s.arena.pointer i = .ok x) : ∃ q, s.arena.Points i q := by
  obtain ⟨f, hres, -⟩ := hs (.pointer i) ⟨x, hi⟩
  cases hres with
  | pointer hq => exact ⟨_, hq⟩

/-- The edges that a run adds by hand can be listed. -/
theorem exists_extra (hp : p.Accepted) (h : Reaches p how anyExtra s) :
    ∃ extra, Reaches p how (Between extra) s := by
  induction h with
  | start hs => exact ⟨[], .start hs⟩
  | step _ ha ih =>
    obtain ⟨extra, ih⟩ := ih
    exact ⟨extra, .step ih ha⟩
  | @addFlow s i j x y _ hi hj _ ih =>
    obtain ⟨extra, ih⟩ := ih
    have hg := grounded_of_reaches hp ih
    obtain ⟨q, hq⟩ := hg.exists_points hi
    obtain ⟨r, hr⟩ := hg.exists_points hj
    have hmore : Reaches p how (Between ((q, r) :: extra)) s :=
      ih.mono fun _ _ _ => Between.mono fun _ => List.mem_cons_of_mem _
    exact ⟨(q, r) :: extra, hmore.addFlow hi hj ⟨q, r, hq, hr, List.mem_cons_self⟩⟩

/-! ## The check -/

theorem forM_eq_ok {α : Type} {f : α → Except Fault Unit} :
    ∀ {l : List α}, (∀ a ∈ l, f a = .ok ()) → l.forM f = .ok ()
  | [], _ => rfl
  | a :: l, h => by
    show (f a >>= fun _ => l.forM f) = .ok ()
    rw [h a List.mem_cons_self]
    exact forM_eq_ok fun b hb => h b (List.mem_cons_of_mem a hb)

theorem hasFlow_of_mem_toList {i j : PointerId} (h : (i, j) ∈ s.flow.toList) : s.HasFlow i j := by
  obtain ⟨⟨k, targets⟩, hk, hj⟩ := List.mem_flatMap.1 h
  obtain ⟨j', hj', heq⟩ := List.mem_map.1 hj
  cases heq
  have hsuccs : j ∈ s.flow.succs i := by
    rw [FlowEdges.succs, Std.ExtTreeMap.getD_eq_getD_getElem?,
      Std.ExtTreeMap.mem_toList_iff_getElem?_eq_some.1 hk]
    exact hj'
  rw [FlowEdges.succs_eq] at hsuccs
  simpa [targetsIn, HasFlow] using hsuccs

theorem pointsTo_eq_ok {a : Arena} {i : PointerId} {x : Pointer} (h : a.pointer i = .ok x) :
    a.pointsTo i = .ok (a.objectsOf i) := by
  have hlt := Arena.index_lt_of_pointer h
  rw [Arena.pointsTo, orUnknown_eq_ok, Arena.objectsOf, Array.getElem?_eq_getElem hlt]
  rfl

section Check

variable (hc : Closed p how s) (hg : s.Grounded p how extra)

include hc hg in
theorem checkFlow_eq_ok : s.checkFlow = .ok () := by
  refine forM_eq_ok ?_
  rintro ⟨i, j⟩ hij
  have hflow := hasFlow_of_mem_toList hij
  obtain ⟨f, hres, -⟩ := hg (.flow i j) hflow
  cases hres with
  | flow hi hj =>
    obtain ⟨x, hx, -⟩ := hi
    obtain ⟨y, hy, -⟩ := hj
    refine bind_eq_ok.2 ⟨_, pointsTo_eq_ok hx, bind_eq_ok.2 ⟨_, pointsTo_eq_ok hy, ?_⟩⟩
    rw [if_pos (ObjectSet.isSubset_iff.2 (hc.flow hflow))]
    rfl

include hc hg in
/-- An object at the receiver of a call has led the call to its method. -/
theorem checkCall_eq_ok (hp : p.Accepted) {c : ContextId} {site : StmtId} {call : Invoke}
    {v : VarId} {o : ObjId} (hr : (c, site.method) ∈ s.calls.reachable.toList)
    (hst : p.stmt site = .ok (.invoke call)) (hv : call.receiver = some v)
    (ho : s.Holds (.var c v) o) : s.checkCall p c site call o = .ok () := by
  obtain ⟨obj, hobj, hleads⟩ := hc.passed hr hst hv ho
  obtain ⟨i, hi, hio⟩ := ho
  obtain ⟨q, hq⟩ := hg.exists_points hi
  obtain ⟨x, hx, hd⟩ := hg.holds hq (Or.inl hio)
  obtain ⟨obj', hobj', -, -, hty, -⟩ := Arena.spells_iff.1 hx
  rw [hobj] at hobj'
  cases hobj'
  have hclass : obj.class? = x.ty.class? := congrArg Ty.class? hty
  obtain ⟨found, hfound⟩ := Program.callee_total hp hst (hd.sensible hp).2
  rw [← hclass] at hfound
  refine bind_eq_ok.2 ⟨obj, hobj, bind_eq_ok.2 ⟨found, hfound, ?_⟩⟩
  cases found with
  | none => rfl
  | some m =>
    obtain ⟨method, context, heap, callee, -, -, -, -, hmem, -⟩ := hleads m hfound
    have hany : (s.calls.callees (c, site)).any (·.2 = m) = true := by
      rw [List.any_eq_true]
      exact ⟨(callee, m), List.mem_map.2 ⟨_, List.mem_filter.2 ⟨hmem, by simp⟩, rfl⟩, by simp⟩
    simp only [hany]
    rfl

include hc hg in
theorem checkCalls_eq_ok (hp : p.Accepted) : s.checkCalls p = .ok () := by
  refine forM_eq_ok ?_
  rintro ⟨c, m⟩ hr
  obtain ⟨method, hm⟩ := hg.method_of_reachable hp hr
  refine bind_eq_ok.2 ⟨method, hm, forM_eq_ok fun site hsite => ?_⟩
  obtain ⟨rfl, call, hst⟩ := (Program.mem_callSites hp hm).1 hsite
  refine bind_eq_ok.2 ⟨some call, Program.invoke?_eq_ok.2 ⟨_, hst, rfl⟩, ?_⟩
  cases hv : call.receiver with
  | none => simp only [hv]; rfl
  | some v =>
    simp only [hv]
    cases hi : s.arena.pointerId? (.var c v) with
    | none => rfl
    | some i =>
      have hi' := Arena.pointerId?_eq_some.1 hi
      refine bind_eq_ok.2 ⟨_, pointsTo_eq_ok hi', forM_eq_ok fun o ho => ?_⟩
      exact checkCall_eq_ok hc hg hp hr hst hv ⟨i, hi', Std.ExtTreeSet.mem_toList.1 ho⟩

end Check

/-- **Closure at the fixpoint.** Whatever a run serves next, in whichever order objects react and
whichever edges are added by hand: when nothing waits all rules hold, and the check confirms it. -/
theorem fixpoint_closed (hp : p.Accepted) (h : Reaches p how anyExtra s)
    (hs : s.pending.isEmpty = true) : Closed p how s ∧ s.check p = .ok () := by
  have hc := closed_of_reaches hp h hs
  obtain ⟨extra, he⟩ := exists_extra hp h
  have hg := grounded_of_reaches hp he
  refine ⟨hc, ?_⟩
  rw [check, hs]
  exact bind_eq_ok.2 ⟨(), checkFlow_eq_ok hc hg, checkCalls_eq_ok hc hg hp⟩

/-- An edge between the two boxes is added by hand as soon as the pointers exist. -/
theorem boxes_fixpoint_closed :
    ∃ s, Reaches (.index boxes) (.object 1) anyExtra s ∧ s.pending.isEmpty = true ∧
      s.HasFlow ⟨0⟩ ⟨1⟩ ∧ Closed (.index boxes) (.object 1) s ∧
      s.check (.index boxes) = .ok () := by
  obtain ⟨s, hs, htest⟩ := exists_ok_of_any
    ((initial (.object 1) .lifo).start (.index boxes) (.object 1) 100)
    (fun s => decide (s.arena.pointers.get? 0 = some (.var ⟨0⟩ ⟨0⟩)) &&
      decide (s.arena.pointers.get? 1 = some (.var ⟨0⟩ ⟨1⟩)) &&
      (State.run (.index boxes) (.object 1) 100 100 (s.addFlow ⟨0⟩ ⟨1⟩)).toOption.any fun r =>
        r.2.pending.isEmpty && r.2.flow.contains ⟨0⟩ ⟨1⟩) (by decide +kernel)
  simp only [Bool.and_eq_true, decide_eq_true_eq] at htest
  obtain ⟨⟨hbox, hitem⟩, hrun⟩ := htest
  obtain ⟨⟨n, t⟩, ht, hend⟩ := exists_ok_of_any _ _ hrun
  obtain ⟨hempty, hflow⟩ := Bool.and_eq_true_iff.1 hend
  have hedge : Reaches (.index boxes) (.object 1) anyExtra (s.addFlow ⟨0⟩ ⟨1⟩) :=
    .addFlow (.start hs) (Arena.pointer_eq_ok.2 hbox) (Arena.pointer_eq_ok.2 hitem) trivial
  have hreaches := Reaches.run hedge ht
  exact ⟨t, hreaches, hempty, FlowEdges.contains_iff.1 hflow,
    fixpoint_closed boxes_accepted hreaches hempty⟩

end ObjectFlow.PointsTo.State
