import ObjectFlow.Proofs.Precision

/-!
# Everything that follows from the rules is found

A state shows a fact (`Shows`) when one of its findings resolves to the fact. Once nothing waits, a
state that is closed under the rules shows every derivable fact: `shows_of_derives`. Together with
precision this makes the findings of a finished run a function of the program:
`Finished.shows_iff_derives`.
-/

namespace ObjectFlow.PointsTo.State

/-- A fact has been found. -/
def Shows (s : State) (f : Fact) : Prop := ∃ r, s.Finds r ∧ Resolves s.arena r f

variable {p : Program} {how : Sensitivity} {extra : List (Place × Place)} {s : State}

/-! ## Facts and findings -/

theorem shows_context {h : History} : s.Shows (.context h) ↔ ∃ c, s.arena.Recalls c h := by
  constructor
  · rintro ⟨r, hr, hres⟩
    cases hres with
    | context hc => exact ⟨_, hc⟩
  · rintro ⟨c, hc⟩
    have ⟨x, hx, _⟩ := hc
    exact ⟨.context c, ⟨x, hx⟩, .context hc⟩

theorem shows_object {x : ObjectOrigin} : s.Shows (.object x) ↔ ∃ o, s.arena.Spells o x := by
  constructor
  · rintro ⟨r, hr, hres⟩
    cases hres with
    | object ho => exact ⟨_, ho⟩
  · rintro ⟨o, ho⟩
    obtain ⟨obj, hobj, -⟩ := Arena.spells_iff.1 ho
    exact ⟨.object o, ⟨obj, hobj⟩, .object ho⟩

theorem shows_pointer {q : Place} : s.Shows (.pointer q) ↔ ∃ i, s.arena.Points i q := by
  constructor
  · rintro ⟨r, hr, hres⟩
    cases hres with
    | pointer hi => exact ⟨_, hi⟩
  · rintro ⟨i, hi⟩
    have ⟨x, hx, _⟩ := hi
    exact ⟨.pointer i, ⟨x, hx⟩, .pointer hi⟩

theorem shows_reachable {h : History} {m : MethodId} :
    s.Shows (.reachable h m) ↔ ∃ c, s.arena.Recalls c h ∧ (c, m) ∈ s.calls.reachable.toList := by
  constructor
  · rintro ⟨r, hr, hres⟩
    cases hres with
    | reachable _ hc => exact ⟨_, hc, hr⟩
  · rintro ⟨c, hc, hm⟩
    exact ⟨.reachable (c, m), hm, .reachable m hc⟩

theorem shows_call {e : CallEdge (History × StmtId) (History × MethodId)} :
    s.Shows (.call e) ↔ ∃ c c', s.arena.Recalls c e.site.1 ∧ s.arena.Recalls c' e.callee.1 ∧
      ⟨e.kind, (c, e.site.2), (c', e.callee.2)⟩ ∈ s.calls.edges.toList := by
  constructor
  · rintro ⟨r, hr, hres⟩
    cases hres with
    | call kind site m hc hc' => exact ⟨_, _, hc, hc', hr⟩
  · rintro ⟨c, c', hc, hc', he⟩
    exact ⟨.call _, he, .call e.kind e.site.2 e.callee.2 hc hc'⟩

theorem shows_flow {q r : Place} :
    s.Shows (.flow q r) ↔ ∃ i j, s.arena.Points i q ∧ s.arena.Points j r ∧ s.HasFlow i j := by
  constructor
  · rintro ⟨f, hf, hres⟩
    cases hres with
    | flow hi hj => exact ⟨_, _, hi, hj, hf⟩
  · rintro ⟨i, j, hi, hj, hij⟩
    exact ⟨.flow i j, hij, .flow hi hj⟩

theorem shows_holds {q : Place} {x : ObjectOrigin} :
    s.Shows (.holds q x) ↔ ∃ i o, s.arena.Points i q ∧ s.arena.Spells o x ∧ s.Knows i o := by
  constructor
  · rintro ⟨r, hr, hres⟩
    cases hres with
    | holds hi ho => exact ⟨_, _, hi, ho, hr⟩
  · rintro ⟨i, o, hi, ho, hio⟩
    exact ⟨.holds i o, hio, .holds hi ho⟩

theorem Flows.shows {x y : Pointer} (h : s.Flows x y) {q r : Place} (hx : s.arena.Names x q)
    (hy : s.arena.Names y r) : s.Shows (.flow q r) := by
  obtain ⟨i, j, hi, hj, hij⟩ := h
  exact shows_flow.2 ⟨i, j, ⟨x, hi, hx⟩, ⟨y, hj, hy⟩, hij⟩

theorem Holds.shows {x : Pointer} {o : ObjId} (h : s.Holds x o) {q : Place} {y : ObjectOrigin}
    (hx : s.arena.Names x q) (ho : s.arena.Spells o y) : s.Shows (.holds q y) := by
  obtain ⟨i, hi, hio⟩ := h
  exact shows_holds.2 ⟨i, o, ⟨x, hi, hx⟩, ho, Or.inl hio⟩

/-! ## Closed states show what can be derived -/

section Closed

variable (hc : Closed p how s) (hb : s.Balanced)
  (hs : s.pending.isEmpty = true)

include hb hs in
theorem knows_iff_of_isEmpty {i : PointerId} {o : ObjId} :
    s.Knows i o ↔ o ∈ s.arena.objectsOf i :=
  or_iff_left (Pending.not_mem_waiting_of_isEmpty hb.coherent hs i o)

include hb hs in
/-- An object shown at a variable has arrived at the variable. -/
theorem exists_holds_of_shows {c : ContextId} {h : History} (hch : s.arena.Recalls c h) {v : VarId}
    {x : ObjectOrigin} (hx : s.Shows (.holds (.var h v) x)) :
    ∃ o, s.arena.Spells o x ∧ s.Holds (.var c v) o := by
  obtain ⟨i, o, ⟨u, hu, hn⟩, ho, hio⟩ := shows_holds.1 hx
  cases hn with
  | var _ hc' =>
    obtain rfl := hc'.inj hch
    exact ⟨o, ho, i, hu, (knows_iff_of_isEmpty hb hs).1 hio⟩

include hc in
theorem shows_executed {h : History} {site : StmtId} {st : Stmt}
    (hr : s.Shows (.reachable h site.method)) (hst : p.stmt site = .ok st) :
    ∃ c, s.arena.Recalls c h ∧ s.Executed p how s.Holds c site st := by
  obtain ⟨c, hch, hm⟩ := shows_reachable.1 hr
  exact ⟨c, hch, hc.executed hm hst⟩

include hc hb hs in
theorem shows_passed {h : History} {site : StmtId} {st : Stmt} {v : VarId} {x : ObjectOrigin}
    (hr : s.Shows (.reachable h site.method)) (hst : p.stmt site = .ok st)
    (hv : st.through = some v) (hx : s.Shows (.holds (.var h v) x)) :
    ∃ c o, s.arena.Recalls c h ∧ s.arena.Spells o x ∧ s.Passed p how s.Holds o c site st := by
  obtain ⟨c, hch, hm⟩ := shows_reachable.1 hr
  obtain ⟨o, ho, hheld⟩ := exists_holds_of_shows hb hs hch hx
  exact ⟨c, o, hch, ho, hc.passed hm hst hv hheld⟩

include hc in
theorem shows_bound {e : CallEdge (History × StmtId) (History × MethodId)}
    (he : s.Shows (.call e)) :
    ∃ c c', s.arena.Recalls c e.site.1 ∧ s.arena.Recalls c' e.callee.1 ∧
      s.Bound p ⟨e.kind, (c, e.site.2), (c', e.callee.2)⟩ := by
  obtain ⟨c, c', hch, hch', hmem⟩ := shows_call.1 he
  exact ⟨c, c', hch, hch', hc.bound hmem⟩

include hc hb hs in
/-- What a call on an object leads to, with the numbers resolved. -/
theorem shows_leads {h : History} {site : StmtId} {call : Invoke} {v : VarId} {x : ObjectOrigin}
    {m : MethodId} (hr : s.Shows (.reachable h site.method))
    (hst : p.stmt site = .ok (.invoke call)) (hv : call.receiver = some v)
    (hx : s.Shows (.holds (.var h v) x))
    (hm : p.hierarchy.callee x.ty.class? call = .ok (some m)) :
    ∃ c c' o method, s.arena.Recalls c h ∧ s.arena.Recalls c' (how.historyAfterCall h site x) ∧
      s.arena.Spells o x ∧ p.method m = .ok method ∧
      ⟨call.kind, (c, site), (c', m)⟩ ∈ s.calls.edges.toList ∧
      ∀ this, method.decl.this = some this → s.Holds (.var c' this) o := by
  obtain ⟨c, o, hch, ho, obj, hobj, hall⟩ := shows_passed hc hb hs hr hst hv hx
  obtain ⟨obj', hobj', hheap, -, hty, hcontainer⟩ := Arena.spells_iff.1 ho
  rw [hobj] at hobj'
  cases hobj'
  have hclass : obj.class? = x.ty.class? := congrArg Ty.class? hty
  obtain ⟨method, context, heap, c', hmethod, hcontext, hheap', hc', hmem, hthis⟩ :=
    hall m (by rw [hclass, hm])
  have htells := (hch.tells hcontext).afterCall how site ho (hheap.tells hheap')
  rw [← hcontainer] at htells
  exact ⟨c, c', o, method, hch, ⟨_, hc', htells⟩, ho, hmethod, hmem, hthis⟩

include hc hb hs in
/-- **Completeness.** A closed state in which nothing waits shows whatever can be derived. -/
theorem shows_of_derives
    (hextra : ∀ q r, (q, r) ∈ extra → s.Shows (.pointer q) → s.Shows (.pointer r) →
      s.Shows (.flow q r))
    {f : Fact} (h : Derives p how extra f) : s.Shows f := by
  induction h with
  | entry =>
    obtain ⟨c, hctx, hm⟩ := hc.entry
    exact shows_reachable.2 ⟨c, ⟨_, hctx, Arena.tells_start⟩, hm⟩
  | @alloc h site lhs ty method _ hst hm ihr =>
    obtain ⟨c, hch, o, ⟨context, method', heap, hcontext, hm', hheap, ho⟩, hheld⟩ :=
      shows_executed hc ihr hst
    rw [hm] at hm'
    cases hm'
    have htells := (hch.tells hcontext).allocated how
    exact hheld.shows (.var lhs hch)
      (Arena.spells_iff.2 ⟨_, ho, ⟨_, hheap, htells⟩, rfl, rfl, rfl⟩)
  | @copy h site lhs rhs _ hst ihr =>
    obtain ⟨c, hch, hflow⟩ := shows_executed hc ihr hst
    exact Flows.shows hflow (.var rhs hch) (.var lhs hch)
  | @cast h site lhs rhs ty _ hst ihr =>
    obtain ⟨c, hch, hflow⟩ := shows_executed hc ihr hst
    exact Flows.shows hflow (.var rhs hch) (.var lhs hch)
  | @staticLoad h site lhs f _ hst ihr =>
    obtain ⟨c, hch, hflow⟩ := shows_executed hc ihr hst
    exact Flows.shows hflow (.staticField f) (.var lhs hch)
  | @staticStore h site f rhs _ hst ihr =>
    obtain ⟨c, hch, hflow⟩ := shows_executed hc ihr hst
    exact Flows.shows hflow (.var rhs hch) (.staticField f)
  | @staticCall h site call m _ hst hk hm ihr =>
    obtain ⟨c, hch, hexec⟩ := shows_executed hc ihr hst
    obtain ⟨m', context, c', hm', hcontext, hc', hmem⟩ := hexec (by simp [Invoke.isStatic, hk])
    rw [hm] at hm'
    cases hm'
    have htells := (hch.tells hcontext).afterStaticCall how site
    exact shows_call.2 ⟨c, c', hch, ⟨_, hc', htells⟩, hmem⟩
  | @store h site x f rhs o _ hst _ ihr ihx =>
    obtain ⟨c, o', hch, ho, hflow⟩ := shows_passed hc hb hs ihr hst rfl ihx
    exact Flows.shows hflow (.var rhs hch) (.instanceField f ho)
  | @load h site lhs x f o _ hst _ ihr ihx =>
    obtain ⟨c, o', hch, ho, hflow⟩ := shows_passed hc hb hs ihr hst rfl ihx
    exact Flows.shows hflow (.instanceField f ho) (.var lhs hch)
  | @arrayStore h site x index rhs o _ hst _ ihr ihx =>
    obtain ⟨c, o', hch, ho, hflow⟩ := shows_passed hc hb hs ihr hst rfl ihx
    exact Flows.shows hflow (.var rhs hch) (.elements ho)
  | @arrayLoad h site lhs x index o _ hst _ ihr ihx =>
    obtain ⟨c, o', hch, ho, hflow⟩ := shows_passed hc hb hs ihr hst rfl ihx
    exact Flows.shows hflow (.elements ho) (.var lhs hch)
  | instanceCall _ hst hx _ hm ihr ihx =>
    obtain ⟨c, c', o, method, hch, hch', ho, hmethod, hmem, -⟩ :=
      shows_leads hc hb hs ihr hst hx ihx hm
    exact shows_call.2 ⟨c, c', hch, hch', hmem⟩
  | @this h site call x o m method this _ hst hx _ hm hmethod hthis ihr ihx =>
    obtain ⟨c, c', o', method', hch, hch', ho, hmethod', hmem, hheld⟩ :=
      shows_leads hc hb hs ihr hst hx ihx hm
    rw [hmethod] at hmethod'
    cases hmethod'
    exact (hheld this hthis).shows (.var this hch') ho
  | callee _ ih =>
    obtain ⟨c, c', hch, hch', hmem⟩ := shows_call.1 ih
    exact shows_reachable.2 ⟨c', hch', hc.entered hmem⟩
  | @argument e call method arg param _ hst hm hap ih =>
    obtain ⟨c, c', hch, hch', hbound⟩ := shows_bound hc ih
    exact (hbound.argument hst hm hap).shows (.var arg hch) (.var param hch')
  | @result e call method lhs value _ hst hm hl hv ih =>
    obtain ⟨c, c', hch, hch', hbound⟩ := shows_bound hc ih
    exact (hbound.result hst hm hl hv).shows (.var value hch') (.var lhs hch)
  | propagate _ _ ihf ihh =>
    obtain ⟨i, j, hi, hj, hij⟩ := shows_flow.1 ihf
    obtain ⟨i', o, hi', ho, hio⟩ := shows_holds.1 ihh
    obtain rfl := hi.inj hi'
    rw [knows_iff_of_isEmpty hb hs] at hio
    exact shows_holds.2 ⟨j, o, hj, ho, Or.inl (hc.flow hij o hio)⟩
  | extra he _ _ ihq ihr => exact hextra _ _ he ihq ihr
  | contextOfMethod _ ih =>
    obtain ⟨c, hch, -⟩ := shows_reachable.1 ih
    exact shows_context.2 ⟨c, hch⟩
  | contextOfObject _ ih =>
    obtain ⟨o, ho⟩ := shows_object.1 ih
    obtain ⟨obj, -, hheap, -⟩ := Arena.spells_iff.1 ho
    exact shows_context.2 ⟨obj.context, hheap⟩
  | objectOfHolds _ ih =>
    obtain ⟨i, o, -, ho, -⟩ := shows_holds.1 ih
    exact shows_object.2 ⟨o, ho⟩
  | pointerOfHolds _ ih =>
    obtain ⟨i, o, hi, -⟩ := shows_holds.1 ih
    exact shows_pointer.2 ⟨i, hi⟩
  | source _ ih =>
    obtain ⟨i, j, hi, -⟩ := shows_flow.1 ih
    exact shows_pointer.2 ⟨i, hi⟩
  | target _ ih =>
    obtain ⟨i, j, -, hj, -⟩ := shows_flow.1 ih
    exact shows_pointer.2 ⟨j, hj⟩
  | @resultPointer e call lhs _ hst hl ih =>
    obtain ⟨c, c', hch, -, call', method, hst', -, -, hresult⟩ := shows_bound hc ih
    rw [hst] at hst'
    cases hst'
    obtain ⟨⟨i, hi⟩, -⟩ := hresult lhs hl
    exact shows_pointer.2 ⟨i, _, hi, .var lhs hch⟩

end Closed

theorem Grounded.derives_of_shows (hg : s.Grounded p how extra) {f : Fact} (h : s.Shows f) :
    Derives p how extra f := by
  obtain ⟨r, hr, hres⟩ := h
  obtain ⟨g, hres', hd⟩ := hg r hr
  obtain rfl := hres.unique hres'
  exact hd

end ObjectFlow.PointsTo.State
