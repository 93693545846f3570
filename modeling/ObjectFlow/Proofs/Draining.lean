import Mathlib.Data.Set.Finite.Lattice
import Mathlib.Data.Set.Finite.List
import Mathlib.Order.Interval.Finset.Nat
import ObjectFlow.Proofs.Precision

/-!
# Performing tasks comes to an end

A task may ask for further tasks, and these for others: a method that becomes reachable has its
static calls followed, which make further methods reachable. This comes to an end whatever contexts
remember, even where an analysis as a whole need not. While tasks are performed, all contexts are
short sequences over finitely many elements (`Confined`): those that were there before, the
statements of the program, and the objects whose arrival is being dealt with. Objects that are
allocated meanwhile only arrive later. So there is a bound on the methods and calls that can be
found (`exists_callCount_le`), and only with a new method or call do new tasks come.

The result is `exists_drain`: tasks can be performed to the end, and a larger limit on their number
changes nothing.
-/

namespace ObjectFlow

/-! ## Finitely many -/

/-- A sequence of some of these elements, with a limit of at most `n`. -/
def Recent.Within {α : Type} (elements : Set α) (n : Nat) (r : Recent α) : Prop :=
  r.limit ≤ n ∧ ∀ a ∈ r.items, a ∈ elements

namespace Recent.Within

variable {α : Type} {elements : Set α} {n : Nat} {r : Recent α}

theorem empty {limit : Nat} (h : limit ≤ n) : (Recent.empty limit).Within elements n :=
  ⟨h, by simp⟩

theorem push (h : r.Within elements n) {a : α} (ha : a ∈ elements) :
    (r.push a).Within elements n := by
  refine ⟨h.1, fun b hb => ?_⟩
  rcases List.mem_cons.1 (List.mem_of_mem_take hb) with rfl | hb
  · exact ha
  · exact h.2 b hb

theorem newest (h : r.Within elements n) (k : Nat) : (r.newest k).Within elements n := by
  refine ⟨h.1, fun b hb => h.2 b ?_⟩
  rw [Recent.items_newest] at hb
  exact List.mem_of_mem_take hb

end Recent.Within

theorem Recent.finite_within {α : Type} {elements : Set α} (h : elements.Finite) (n : Nat) :
    {r : Recent α | r.Within elements n}.Finite := by
  have hlists : {l : List α | l.length ≤ n ∧ ∀ a ∈ l, a ∈ elements}.Finite := by
    have := h.to_subtype
    refine ((List.finite_length_le elements n).image (List.map Subtype.val)).subset ?_
    rintro l ⟨hl, hmem⟩
    exact ⟨l.attach.map fun a => ⟨a.1, hmem a.1 a.2⟩, by simpa using hl, by simp⟩
  refine Set.Finite.of_finite_image (((Set.finite_Iic n).prod hlists).subset ?_)
    (f := fun r => (r.limit, r.items)) ?_
  · rintro _ ⟨r, hr, rfl⟩
    exact ⟨hr.1, r.length_le.trans hr.1, hr.2⟩
  · intro r _ r' _ heq
    exact Recent.ext (Prod.mk.inj heq).1 (Prod.mk.inj heq).2

/-- There is a bound on the length of lists in which every member of a finite set occurs at most
once and nothing else does. -/
theorem exists_length_le {α : Type} {S : Set α} (h : S.Finite) :
    ∃ n, ∀ l : List α, l.Nodup → (∀ a ∈ l, a ∈ S) → l.length ≤ n := by
  classical
  refine ⟨h.toFinset.card, fun l hnodup hmem => ?_⟩
  rw [← List.toFinset_card_of_nodup hnodup]
  refine Finset.card_le_card fun a ha => ?_
  exact h.mem_toFinset.2 (hmem a (List.mem_toFinset.1 ha))

theorem Id.finite_lt (kind : Kind) (n : Nat) : {i : Id kind | i.index < n}.Finite :=
  (List.finite_toSet (Id.range kind n)).subset fun _ hi => Id.mem_range.2 hi

theorem CallEdge.finite_between {σ μ : Type} {S : Set σ} {M : Set μ} (hS : S.Finite)
    (hM : M.Finite) : {e : CallEdge σ μ | e.site ∈ S ∧ e.callee ∈ M}.Finite := by
  have hkinds : (Set.univ : Set CallKind).Finite :=
    (List.finite_toSet CallKind.all).subset fun k _ => by cases k <;> simp [CallKind.all]
  refine ((hkinds.prod (hS.prod hM)).image fun x => ⟨x.1, x.2.1, x.2.2⟩).subset ?_
  rintro ⟨kind, site, callee⟩ ⟨hs, hm⟩
  exact ⟨(kind, site, callee), ⟨trivial, hs, hm⟩, rfl⟩

namespace Program

theorem finite_methods (p : Program) : {m | ∃ method, p.method m = .ok method}.Finite := by
  refine (Id.finite_lt .methods p.methods.size).subset ?_
  rintro m ⟨method, hm⟩
  exact (Array.getElem?_eq_some_iff.1 (orUnknown_eq_ok.1 hm)).1

theorem finite_sites (p : Program) : {site | ∃ st, p.stmt site = .ok st}.Finite := by
  have hbodies : ∀ m, {site : StmtId | site.method = m ∧ ∃ st, p.stmt site = .ok st}.Finite := by
    intro m
    cases hm : p.method m with
    | error e =>
      refine Set.finite_empty.subset ?_
      rintro site ⟨rfl, st, hst⟩
      obtain ⟨method, hm', -⟩ := stmt_eq_ok.1 hst
      rw [hm] at hm'
      cases hm'
    | ok method =>
      refine ((Set.finite_Iio method.decl.body.size).image (StmtId.mk m)).subset ?_
      rintro ⟨m', i⟩ ⟨rfl, st, hst⟩
      obtain ⟨method', hm', hi⟩ := stmt_eq_ok.1 hst
      rw [hm] at hm'
      cases hm'
      exact ⟨i, (Array.getElem?_eq_some_iff.1 hi).1, rfl⟩
  refine (p.finite_methods.biUnion fun m _ => hbodies m).subset ?_
  rintro site ⟨st, hst⟩
  obtain ⟨method, hm, -⟩ := stmt_eq_ok.1 hst
  exact Set.mem_biUnion (show site.method ∈ _ from ⟨method, hm⟩) ⟨rfl, st, hst⟩

end Program

namespace Sensitivity

variable {how : Sensitivity} {elements : Set ContextElement} {n : Nat} {context : Context}
  {site : StmtId}

theorem within_afterStaticCall (hn : how.limit ≤ n) (hc : context.Within elements n)
    (hsite : .site site ∈ elements) : (how.afterStaticCall context site).Within elements n := by
  cases how with
  | insensitive => exact .empty hn
  | callSite k => exact hc.push hsite
  | object k => exact hc
  | type k => exact hc

theorem within_afterCall (hn : how.limit ≤ n) (hc : context.Within elements n)
    (hsite : .site site ∈ elements) {receiver : Receiver}
    (hr : receiver.context.Within elements n) (ho : .object receiver.id ∈ elements)
    (ht : .type receiver.container ∈ elements) :
    (how.afterCall context site receiver).Within elements n := by
  cases how with
  | insensitive => exact .empty hn
  | callSite k => exact hc.push hsite
  | object k => exact hr.push ho
  | type k => exact hr.push ht

theorem within_heap (hn : how.limit ≤ n) (hc : context.Within elements n) :
    (how.heap context).Within elements n := by
  cases how with
  | insensitive => exact .empty hn
  | callSite k => exact hc.newest _
  | object k => exact hc.newest _
  | type k => exact hc.newest _

end Sensitivity

namespace PointsTo.State

variable {p : Program} {how : Sensitivity} {extra : List (Place × Place)} {s t u : State}
  {elements : Set ContextElement} {n : Nat}

/-! ## Contexts of tasks -/

/-- The contexts met so far are short sequences of these elements. -/
def Confined (s : State) (elements : Set ContextElement) (n : Nat) : Prop :=
  ∀ x ∈ s.arena.contexts.toList, x.Within elements n

/-- What performing a task may add to a context is among these elements. -/
def Fits (s : State) (elements : Set ContextElement) : Task → Prop
  | .arrive o _ _ => ∃ x, s.arena.object o = .ok x ∧ .object o ∈ elements ∧
      .type x.container ∈ elements
  | .enter .. | .execute .. | .bind _ => True

theorem Fits.mono (h : s.arena.Extends t.arena) {task : Task} (hf : s.Fits elements task) :
    t.Fits elements task := by
  cases task with
  | arrive o c site =>
    obtain ⟨x, hx, hmem⟩ := hf
    exact ⟨x, h.object hx, hmem⟩
  | _ => trivial

theorem Confined.within (hs : s.Confined elements n) {c : ContextId} {x : Context}
    (h : s.arena.context c = .ok x) : x.Within elements n := by
  refine hs x ?_
  rw [Arena.context_eq_ok, Roster.get?_eq_getElem?] at h
  exact List.mem_of_getElem? h

theorem Confined.of_eq (hs : s.Confined elements n)
    (h : t.arena.contexts = s.arena.contexts) : t.Confined elements n := by
  unfold Confined
  rw [h]
  exact hs

/-- A change that leaves the contexts as they are and asks for nothing. -/
theorem Confined.calm (hs : s.Confined elements n) (h : t.arena.contexts = s.arena.contexts) :
    t.Confined elements n ∧ ∀ task ∈ [], t.Fits elements task :=
  ⟨hs.of_eq h, by simp⟩

theorem Confined.contextId (hs : s.Confined elements n) {x : Context}
    (hx : x.Within elements n) : (s.contextId x).2.Confined elements n := by
  intro y hy
  rcases Roster.mem_insert.1 hy with hy | rfl
  · exact hs y hy
  · exact hx

theorem contexts_pointerId (s : State) (x : Pointer) :
    (s.pointerId x).2.arena.contexts = s.arena.contexts :=
  Arena.addPointer_contexts s.arena x

theorem contexts_send (s : State) (o : ObjId) (x : Pointer) :
    (s.send o x).arena.contexts = s.arena.contexts :=
  s.contexts_pointerId x

theorem arena_addFlow (s : State) (i j : PointerId) : (s.addFlow i j).arena = s.arena := by
  rw [addFlow_eq]
  split <;> rfl

theorem contexts_connect (s : State) (x y : Pointer) :
    (s.connect x y).arena.contexts = s.arena.contexts := by
  show (((s.pointerId x).2.pointerId y).2.addFlow _ _).arena.contexts = _
  rw [arena_addFlow, contexts_pointerId, contexts_pointerId]

theorem contexts_foldl_connect {α : Type} (x y : α → Pointer) (l : List α) (s : State) :
    (l.foldl (fun s a => s.connect (x a) (y a)) s).arena.contexts = s.arena.contexts := by
  induction l generalizing s with
  | nil => rfl
  | cons a l ih => rw [List.foldl_cons, ih, contexts_connect]

theorem arena_addCall (s : State) (e : CallEdge ContextSite ContextMethod) :
    (s.addCall e).2.arena = s.arena := by
  rw [addCall_eq]
  split <;> rfl

theorem contexts_bind {e : CallEdge ContextSite ContextMethod} (h : s.bind p e = .ok t) :
    t.arena.contexts = s.arena.contexts := by
  obtain ⟨kind, ⟨caller, site⟩, callee, m⟩ := e
  obtain ⟨r, -, h⟩ := bind_eq_ok.1 h
  cases r with
  | none => cases h
  | some call =>
    obtain ⟨method, -, h⟩ := bind_eq_ok.1 h
    have hargs := contexts_foldl_connect (fun a => .var caller a.1) (fun a => .var callee a.2)
      (call.args.zip method.decl.params) s
    cases hresult : call.result with
    | none =>
      simp only [hresult] at h
      cases h
      exact hargs
    | some lhs =>
      simp only [hresult] at h
      cases h
      rw [contexts_foldl_connect, contexts_pointerId]
      exact hargs

/-- The tasks that come with a call deal with no arrival. -/
theorem fits_addCall {e : CallEdge ContextSite ContextMethod} {task : Task}
    (h : task ∈ (s.addCall e).1) : t.Fits elements task := by
  rw [addCall_eq] at h
  split at h
  · cases h
  · rcases List.mem_cons.1 h with rfl | h
    · trivial
    · obtain rfl := List.mem_singleton.1 h
      trivial

/-- Recording a call in a further context. -/
theorem Confined.addCall (hs : s.Confined elements n) {x : Context} (hx : x.Within elements n)
    {e : CallEdge ContextSite ContextMethod} {next : List Task}
    (hu : u.arena.contexts = (s.contextId x).2.arena.contexts) (h : u.addCall e = (next, t)) :
    t.Confined elements n ∧ ∀ task ∈ next, t.Fits elements task := by
  obtain rfl : next = (u.addCall e).1 := by rw [h]
  obtain rfl : t = (u.addCall e).2 := by rw [h]
  refine ⟨(hs.contextId hx).of_eq ?_, fun task => fits_addCall⟩
  rw [arena_addCall, hu]

section Perform

variable (hn : how.limit ≤ n) (hsites : ∀ {site st}, p.stmt site = .ok st → .site site ∈ elements)
  (hs : s.Confined elements n)
include hn hsites hs

theorem Confined.execute {c : ContextId} {site : StmtId} {st : Stmt} (hst : p.stmt site = .ok st)
    {next : List Task} (h : s.execute p how c site st = .ok (next, t)) :
    t.Confined elements n ∧ ∀ task ∈ next, t.Fits elements task := by
  -- All but an allocation and a static call leave the contexts as they are.
  cases st with
  | alloc lhs ty =>
    obtain ⟨⟨o, u⟩, hu, h⟩ := bind_eq_ok.1 h
    cases h
    obtain ⟨context, hc, hu⟩ := bind_eq_ok.1 hu
    obtain ⟨method, -, hu⟩ := bind_eq_ok.1 hu
    cases hu
    refine ⟨(hs.contextId (Sensitivity.within_heap hn (hs.within hc))).of_eq ?_, by simp⟩
    exact contexts_send ..
  | copy lhs rhs =>
    cases h
    exact hs.calm (contexts_connect ..)
  | cast lhs rhs ty =>
    cases h
    exact hs.calm (contexts_connect ..)
  | loadField lhs access =>
    obtain ⟨base, f⟩ := access
    cases base <;> cases h
    · exact hs.calm (contexts_connect ..)
    · exact hs.calm rfl
  | storeField access rhs =>
    obtain ⟨base, f⟩ := access
    cases base <;> cases h
    · exact hs.calm (contexts_connect ..)
    · exact hs.calm rfl
  | invoke call =>
    by_cases hk : call.isStatic = true
    · simp only [State.execute, hk, if_true] at h
      obtain ⟨r, -, h⟩ := bind_eq_ok.1 h
      cases r with
      | none => cases h
      | some m =>
        obtain ⟨context, hc, h⟩ := bind_eq_ok.1 h
        exact hs.addCall (Sensitivity.within_afterStaticCall hn (hs.within hc) (hsites hst)) rfl
          (pure_eq_ok.1 h)
    · simp only [State.execute, hk, if_false, Bool.false_eq_true] at h
      cases h
      exact hs.calm rfl
  | _ =>
    cases h
    exact hs.calm rfl

theorem Confined.arrive {o : ObjId} {c : ContextId} {site : StmtId} {st : Stmt}
    (hst : p.stmt site = .ok st) (hf : s.Fits elements (.arrive o c site)) {next : List Task}
    (h : s.arrive p how o c site st = .ok (next, t)) :
    t.Confined elements n ∧ ∀ task ∈ next, t.Fits elements task := by
  cases st with
  | storeField access rhs =>
    cases h
    exact hs.calm (contexts_connect ..)
  | loadField lhs access =>
    cases h
    exact hs.calm (contexts_connect ..)
  | storeArray base index rhs =>
    cases h
    exact hs.calm (contexts_connect ..)
  | loadArray lhs base index =>
    cases h
    exact hs.calm (contexts_connect ..)
  | invoke call =>
    obtain ⟨obj, hobj, h⟩ := bind_eq_ok.1 h
    obtain ⟨r, -, h⟩ := bind_eq_ok.1 h
    cases r with
    | none =>
      cases h
      exact hs.calm rfl
    | some m =>
      obtain ⟨heap, hh, h⟩ := bind_eq_ok.1 h
      obtain ⟨context, hc, h⟩ := bind_eq_ok.1 h
      obtain ⟨method, -, h⟩ := bind_eq_ok.1 h
      obtain ⟨obj', hobj', ho, ht⟩ := hf
      rw [hobj] at hobj'
      cases hobj'
      have hcallee : (how.afterCall context site ⟨o, obj.container, heap⟩).Within elements n :=
        Sensitivity.within_afterCall hn (hs.within hc) (hsites hst) (hs.within hh) ho ht
      refine hs.addCall hcallee ?_ (pure_eq_ok.1 h)
      cases method.decl.this with
      | none => rfl
      | some this => exact contexts_send ..
  | _ =>
    cases h
    exact hs.calm rfl

/-- **Performing a task** keeps the contexts short sequences of the same elements, and asks for no
task that could change this. -/
theorem Confined.perform {task : Task} (hf : s.Fits elements task) {next : List Task}
    (h : s.perform p how task = .ok (next, t)) :
    t.Confined elements n ∧ ∀ task ∈ next, t.Fits elements task := by
  cases task with
  | enter c m =>
    by_cases hr : s.calls.isReachable (c, m) = true
    · simp only [State.perform_enter, hr, if_true] at h
      cases h
      exact ⟨hs, by simp⟩
    · simp only [State.perform_enter, hr, if_false, Bool.false_eq_true] at h
      obtain ⟨method, -, h⟩ := bind_eq_ok.1 h
      cases h
      refine ⟨hs, fun task htask => ?_⟩
      obtain ⟨x, -, rfl⟩ := List.mem_map.1 htask
      trivial
  | execute c site =>
    obtain ⟨st, hst, h⟩ := bind_eq_ok.1 h
    exact hs.execute hn hsites hst h
  | arrive o c site =>
    obtain ⟨st, hst, h⟩ := bind_eq_ok.1 h
    exact hs.arrive hn hsites hst hf h
  | bind e =>
    obtain ⟨u, hu, h⟩ := bind_eq_ok.1 h
    cases h
    exact hs.calm (contexts_bind hu)

end Perform

/-! ## Counting methods and calls -/

/-- There is a bound on the methods and calls that can be found in such contexts. -/
theorem exists_callCount_le (hp : p.Accepted) (how : Sensitivity) (extra : List (Place × Place))
    (helements : elements.Finite) (n : Nat) :
    ∃ bound, ∀ s : State, s.Grounded p how extra → s.Confined elements n →
      s.callCount ≤ bound := by
  obtain ⟨size, hsize⟩ := exists_length_le (Recent.finite_within helements n)
  have hcontexts := Id.finite_lt .contexts size
  obtain ⟨methods, hmethods⟩ := exists_length_le (hcontexts.prod p.finite_methods)
  obtain ⟨calls, hcalls⟩ := exists_length_le (CallEdge.finite_between
    (hcontexts.prod p.finite_sites) (hcontexts.prod p.finite_methods))
  refine ⟨methods + calls, fun s hs hc => ?_⟩
  have hlt : ∀ {c h}, s.arena.Recalls c h → c.index < size := by
    rintro c h ⟨x, hx, -⟩
    have hget := (Array.getElem?_eq_some_iff.1 (Arena.context_eq_ok.1 hx)).1
    exact Nat.lt_of_lt_of_le hget (hsize _ (Roster.nodup_toList s.arena.contexts) hc)
  refine Nat.add_le_add (hmethods _ (Roster.nodup_toList s.calls.reachable) ?_)
    (hcalls _ (Roster.nodup_toList s.calls.edges) ?_)
  · rintro ⟨c, m⟩ hm
    obtain ⟨f, hres, hd⟩ := hs _ (show s.Finds (.reachable (c, m)) from hm)
    cases hres with
    | reachable _ hch => exact ⟨hlt hch, hd.sensible hp⟩
  · intro e he
    obtain ⟨f, hres, hd⟩ := hs _ (show s.Finds (.call e) from he)
    cases hres with
    | call kind site m hch hdk =>
      obtain ⟨⟨call, hst⟩, hm, -⟩ := hd.sensible hp
      exact ⟨⟨hlt hch, _, hst⟩, hlt hdk, hm⟩

/-! ## Tasks -/

theorem exists_drain_of_confined (hp : p.Accepted) (hn : how.limit ≤ n)
    (hsites : ∀ {site st}, p.stmt site = .ok st → .site site ∈ elements)
    (helements : elements.Finite) {tasks : List Task} (hs : s.Grounded p how extra)
    (hc : s.Confined elements n)
    (htasks : ∀ task ∈ tasks, s.Justified p how extra task ∧ s.Fits elements task) :
    ∃ limit t, ∀ more, limit ≤ more → drain p how more tasks s = .ok t := by
  obtain ⟨bound, hbound⟩ := exists_callCount_le hp how extra helements n
  -- The outer induction is on the methods and calls that may still be found, the inner one on the
  -- tasks: a task that finds nothing leaves fewer tasks.
  induction hleft : bound - s.callCount using Nat.strong_induction_on generalizing s tasks with
  | _ left ih =>
  induction tasks generalizing s with
  | nil => exact ⟨0, s, fun more _ => by cases more <;> rfl⟩
  | cons task tasks ihtasks =>
    obtain ⟨hj, hf⟩ := htasks task List.mem_cons_self
    obtain ⟨next, u, hrun, hu, hnext⟩ := hs.perform hp hj
    obtain ⟨huc, hfits⟩ := hc.perform hn hsites hf hrun
    obtain ⟨heffect, -⟩ := perform_effect hp hrun
    have hrest : ∀ task' ∈ tasks, u.Justified p how extra task' ∧ u.Fits elements task' := by
      intro task' htask'
      obtain ⟨hj', hf'⟩ := htasks task' (List.mem_cons_of_mem task htask')
      exact ⟨hj'.mono heffect.arena, hf'.mono heffect.arena⟩
    have hubound := hbound u hu huc
    have hle := heffect.callCount_le
    have hdrain : ∃ limit t, ∀ more, limit ≤ more →
        drain p how more (next ++ tasks) u = .ok t := by
      by_cases hempty : next = []
      · subst hempty
        rcases Nat.lt_or_ge (bound - u.callCount) left with hlt | hge
        · exact ih _ hlt hu huc hrest rfl
        · exact ihtasks hu huc hrest (by omega)
      · have hlt := heffect.callCount_lt hempty
        refine ih (bound - u.callCount) (by omega) hu huc (fun task' htask' => ?_) rfl
        rcases List.mem_append.1 htask' with htask' | htask'
        · exact ⟨hnext task' htask', hfits task' htask'⟩
        · exact hrest task' htask'
    obtain ⟨limit, t, ht⟩ := hdrain
    refine ⟨limit + 1, t, fun more hmore => ?_⟩
    obtain ⟨more, rfl⟩ := Nat.exists_eq_add_of_le' (Nat.le_of_add_left_le hmore)
    exact bind_eq_ok.2 ⟨(next, u), hrun, ht more (by omega)⟩

/-- What contexts may come to remember while tasks are performed: a statement of the program, an
object in use or the class that allocates one, or what a context remembers already. -/
def elementsInUse (p : Program) (s : State) : Set ContextElement :=
  ContextElement.site '' {site | ∃ st, p.stmt site = .ok st} ∪
    {e | e ∈ (Id.range .objects s.arena.objects.size).map ContextElement.object ++
      s.arena.objects.toList.map (fun x => ContextElement.type x.container) ++
      s.arena.contexts.toList.flatMap Recent.items}

theorem finite_elementsInUse : (elementsInUse p s).Finite :=
  (p.finite_sites.image _).union (List.finite_toSet _)

theorem exists_confined (how : Sensitivity) :
    ∃ n, how.limit ≤ n ∧ s.Confined (elementsInUse p s) n := by
  obtain ⟨n, hn⟩ := ((List.finite_toSet s.arena.contexts.toList).image Recent.limit).bddAbove
  refine ⟨max how.limit n, Nat.le_max_left .., fun x hx => ⟨?_, fun e he => Or.inr ?_⟩⟩
  · exact (hn (Set.mem_image_of_mem _ hx)).trans (Nat.le_max_right ..)
  · exact List.mem_append_right _ (List.mem_flatMap.2 ⟨x, hx, he⟩)

theorem Justified.fits {task : Task} (h : s.Justified p how extra task) :
    s.Fits (elementsInUse p s) task := by
  cases task with
  | arrive o c site =>
    obtain ⟨st, v, k, x, -, -, -, ho, -⟩ := h
    obtain ⟨obj, hobj, -⟩ := Arena.spells_iff.1 ho
    have hget := Arena.object_eq_ok.1 hobj
    have hlt := (Array.getElem?_eq_some_iff.1 hget).1
    refine ⟨obj, hobj, Or.inr (List.mem_append_left _ (List.mem_append_left _ ?_)),
      Or.inr (List.mem_append_left _ (List.mem_append_right _ ?_))⟩
    · exact List.mem_map_of_mem (Id.mem_range.2 hlt)
    · rw [Roster.get?_eq_getElem?] at hget
      exact List.mem_map_of_mem (List.mem_of_getElem? hget)
  | _ => trivial

/-- **Tasks come to an end**, and a limit that is large enough does not matter. -/
theorem exists_drain (hp : p.Accepted) {tasks : List Task} (hs : s.Grounded p how extra)
    (hj : ∀ task ∈ tasks, s.Justified p how extra task) :
    ∃ limit t, ∀ more, limit ≤ more → drain p how more tasks s = .ok t := by
  obtain ⟨n, hn, hc⟩ := exists_confined (p := p) (s := s) how
  exact exists_drain_of_confined hp hn (fun hst => Or.inl ⟨_, ⟨_, hst⟩, rfl⟩)
    finite_elementsInUse hs hc fun task htask => ⟨hj task htask, (hj task htask).fits⟩

/-! ## Steps -/

/-- Whichever pointer is served and in whichever order its objects react, the reactions can be
performed to the end. -/
theorem exists_drain_reactions (hp : p.Accepted) (hb : s.Balanced) (hs : s.Grounded p how extra)
    {i : PointerId} {objects : ObjectSet} {rest : Pending} (ht : s.pending.Takes i objects rest)
    {order : List ObjId} (horder : order.Perm (s.arrival i objects rest).1.toList) :
    ∃ tasks limit t, (s.arrival i objects rest).2.reactions p i order = .ok tasks ∧
      ∀ more, limit ≤ more → drain p how more tasks (s.arrival i objects rest).2 = .ok t := by
  obtain ⟨x, hx⟩ := exists_pointer_of_takes hb ht
  have ha := hs.arrival hb ht
  obtain ⟨tasks, hr, hj⟩ := ha.reactions hp ((arrival_extends hb ht).arena.pointer hx) order
    (knows_of_mem_order hb ht horder)
  obtain ⟨limit, t, hd⟩ := exists_drain hp ha hj
  exact ⟨tasks, limit, t, hr, hd⟩

theorem exists_serves (hp : p.Accepted) (hb : s.Balanced) (hs : s.Grounded p how extra)
    {i : PointerId} {objects : ObjectSet} {rest : Pending} (ht : s.pending.Takes i objects rest)
    {order : List ObjId} (horder : order.Perm (s.arrival i objects rest).1.toList) :
    ∃ t, s.Serves p how i objects rest order t := by
  obtain ⟨tasks, limit, t, hr, hd⟩ := exists_drain_reactions hp hb hs ht horder
  exact ⟨t, tasks, limit, hr, hd limit (Nat.le_refl limit)⟩

/-- Each waiting pointer can be served next, and the objects that are new to it can react in any
order. -/
structure Servable (p : Program) (how : Sensitivity) (s : State) : Prop where
  takes : ∀ i ∈ s.pending.queue.toList, ∃ objects rest, s.pending.Takes i objects rest
  serves : ∀ i objects rest order, s.pending.Takes i objects rest →
    order.Perm (s.arrival i objects rest).1.toList → ∃ t, s.Serves p how i objects rest order t

theorem servable (hp : p.Accepted) (hb : s.Balanced) (hs : s.Grounded p how extra) :
    s.Servable p how :=
  ⟨fun _ => hb.coherent.exists_takes, fun _ _ _ _ ht => exists_serves hp hb hs ht⟩

theorem exists_start (hp : p.Accepted) (how : Sensitivity) (discipline : Discipline) :
    ∃ limit s, ∀ more, limit ≤ more → (initial how discipline).start p how more = .ok s := by
  have hopening : (opening p how discipline).Grounded p how [] := grounded_opening
  refine exists_drain hp hopening fun task htask => ?_
  obtain rfl := List.mem_singleton.1 htask
  exact ⟨_, .reachable p.entry ⟨_, context_entryContext, Arena.tells_start⟩, .entry⟩

theorem step_of_isEmpty (h : s.pending.isEmpty = true) (limit : Nat) :
    s.step p how limit = .ok none := by
  have hpop : s.pending.pop = .ok none := by
    unfold Pending.pop
    rw [Pending.next?_of_isEmpty h]
  exact bind_eq_ok.2 ⟨none, hpop, rfl⟩

theorem exists_step (hp : p.Accepted) (hb : s.Balanced) (hs : s.Grounded p how extra)
    (h : s.pending.isEmpty = false) :
    ∃ limit t, ∀ more, limit ≤ more → s.step p how more = .ok (some t) := by
  obtain ⟨i, objects, rest, hpop⟩ := hb.coherent.exists_pop h
  obtain ⟨tasks, limit, t, hr, hd⟩ :=
    exists_drain_reactions hp hb hs (Pending.pop_takes hpop) (.refl _)
  exact ⟨limit, t, fun more hmore => bind_eq_ok.2 ⟨_, hpop, bind_eq_ok.2 ⟨tasks, hr,
    bind_eq_ok.2 ⟨t, hd more hmore, rfl⟩⟩⟩⟩

end PointsTo.State

end ObjectFlow
