import Mathlib.Logic.Relation
import Mathlib.Order.WellFounded
import ObjectFlow.Proofs.CallChains
import ObjectFlow.Proofs.Coarsening

/-!
# Numbers stand for what has been created

Contexts, objects and pointers are known by their numbers, and contexts hold numbers of objects.
Every number that a state uses has been given before: what a state has found resolves to a derivable
fact (`Grounded`), and a number that resolves has been created (`Resolves.created`). The contexts of
a run share one limit.

An object is younger than the objects in its heap context, because these come from the context of
the method that allocates it and were there before. This is kept by every task (`Arena.Layered`),
and it is why the context of an object can be spelled out.

However a run goes on, what has a number keeps it (`Continues.extends`).
-/

namespace ObjectFlow

/-- Numbers stand for distinct values, and looking up a value is the inverse of looking up a
number. -/
structure Roster.Numbered {α : Type} [Keyed α] (r : Roster α) : Prop where
  nodup : r.toList.Nodup
  get?_inj : ∀ {i j a}, r.get? i = some a → r.get? j = some a → i = j
  indexOf? : ∀ {i a}, r.indexOf? a = some i ↔ r.get? i = some a

theorem Roster.numbered {α : Type} [Keyed α] (r : Roster α) : r.Numbered :=
  ⟨r.nodup_toList, Roster.get?_inj, indexOf?_eq_some_iff⟩

theorem Sensitivity.mem_of_mem_heap {how : Sensitivity} {context : Context} {e : ContextElement}
    (h : e ∈ (how.heap context).items) : e ∈ context.items := by
  have hnewest : ∀ n, e ∈ (context.newest n).items → e ∈ context.items := by
    intro n he
    rw [Recent.items_newest] at he
    exact List.mem_of_mem_take he
  cases how with
  | insensitive =>
    rw [heap, start, Recent.items_empty] at h
    cases h
  | callSite k => exact hnewest _ h
  | object k => exact hnewest _ h
  | type k => exact hnewest _ h

namespace Arena

variable {a b : Arena}

/-- The object `inner` is in the heap context of the object `o`. -/
def Inside (a : Arena) (inner o : ObjId) : Prop :=
  ∃ x heap, a.object o = .ok x ∧ a.context x.context = .ok heap ∧ .object inner ∈ heap.items

/-- Objects are younger than the objects in their contexts. -/
def Layered (a : Arena) : Prop := ∀ inner o, a.Inside inner o → inner.index < o.index

theorem Layered.wellFounded (h : a.Layered) : WellFounded a.Inside :=
  Subrelation.wf (h _ _) (InvImage.wf Id.index Nat.lt_wfRel.wf)

/-- A context with this number has been created. -/
def HasContext (a : Arena) (c : ContextId) : Prop := ∃ x, a.context c = .ok x

def HasObject (a : Arena) (o : ObjId) : Prop := ∃ x, a.object o = .ok x

def HasPointer (a : Arena) (i : PointerId) : Prop := ∃ x, a.pointer i = .ok x

/-- What a pointer belongs to has been created. -/
def HasBase (a : Arena) : Pointer → Prop
  | .var c _ => a.HasContext c
  | .instanceField o _ | .elements o => a.HasObject o
  | .staticField _ => True

/-- Whatever a finding refers to by a number has been created. -/
def Created (a : Arena) : PointsTo.Finding → Prop
  | .context c => ∃ x, a.context c = .ok x ∧ ∀ o, .object o ∈ x.items → a.HasObject o
  | .object o => ∃ x, a.object o = .ok x ∧ a.HasContext x.context
  | .pointer i => ∃ x, a.pointer i = .ok x ∧ a.HasBase x
  | .reachable m => a.HasContext m.1
  | .call e => a.HasContext e.site.1 ∧ a.HasContext e.callee.1
  | .flow i j => a.HasPointer i ∧ a.HasPointer j
  | .holds i o => a.HasPointer i ∧ a.HasObject o

theorem Spells.hasObject {o : ObjId} {x : ObjectOrigin} (h : a.Spells o x) : a.HasObject o := by
  obtain ⟨obj, ho, -⟩ := spells_iff.1 h
  exact ⟨obj, ho⟩

theorem Recalls.hasContext {c : ContextId} {h : History} (hc : a.Recalls c h) : a.HasContext c := by
  obtain ⟨x, hx, -⟩ := hc
  exact ⟨x, hx⟩

theorem Points.hasPointer {i : PointerId} {q : Place} (hi : a.Points i q) : a.HasPointer i := by
  obtain ⟨x, hx, -⟩ := hi
  exact ⟨x, hx⟩

/-- The elements of a context that tells a history have origins. -/
theorem Tells.exists_origin {context : Context} {h : History} (ht : a.Tells context h)
    {e : ContextElement} (he : e ∈ context.items) : ∃ y, a.origin e = .ok y := by
  obtain ⟨i, hi, rfl⟩ := List.mem_iff_getElem.1 he
  obtain ⟨hlength, hget⟩ := List.forall₂_iff_get.1 ht.2
  exact ⟨_, hget i hi (hlength ▸ hi)⟩

theorem Tells.hasObject {context : Context} {h : History} (ht : a.Tells context h) {o : ObjId}
    (ho : .object o ∈ context.items) : a.HasObject o := by
  obtain ⟨y, hy⟩ := ht.exists_origin ho
  obtain ⟨obj, -, -, hobj, -⟩ := origin_object.1 hy
  exact ⟨obj, hobj⟩

theorem Names.hasBase {x : Pointer} {q : Place} (h : a.Names x q) : a.HasBase x := by
  cases h with
  | var v hc => exact hc.hasContext
  | instanceField f ho => exact ho.hasObject
  | staticField f => trivial
  | elements ho => exact ho.hasObject

end Arena

namespace PointsTo

theorem Resolves.created {a : Arena} {r : Finding} {f : Fact} (h : Resolves a r f) :
    a.Created r := by
  cases h with
  | context hc =>
    obtain ⟨x, hx, ht⟩ := hc
    exact ⟨x, hx, fun o ho => ht.hasObject ho⟩
  | object ho =>
    obtain ⟨obj, hobj, hc, -⟩ := Arena.spells_iff.1 ho
    exact ⟨obj, hobj, hc.hasContext⟩
  | pointer hi =>
    obtain ⟨x, hx, hn⟩ := hi
    exact ⟨x, hx, hn.hasBase⟩
  | reachable m hc => exact hc.hasContext
  | call kind site m hc hd => exact ⟨hc.hasContext, hd.hasContext⟩
  | flow hi hj => exact ⟨hi.hasPointer, hj.hasPointer⟩
  | holds hi ho => exact ⟨hi.hasPointer, ho.hasObject⟩

namespace State

variable {p : Program} {how : Sensitivity} {extra : List (Place × Place)} {s t : State}

/-! ## Grounded states -/

theorem Grounded.created (hs : s.Grounded p how extra) {r : Finding} (h : s.Finds r) :
    s.arena.Created r := by
  obtain ⟨f, hres, -⟩ := hs r h
  exact hres.created

theorem Grounded.limit (hs : s.Grounded p how extra) {c : ContextId} {x : Context}
    (h : s.arena.context c = .ok x) : x.limit = how.limit := by
  obtain ⟨f, hres, hd⟩ := hs (.context c) ⟨x, h⟩
  cases hres with
  | context hc => exact (hc.tells h).1.trans hd.limits

theorem Grounded.objectText (hs : s.Grounded p how extra) {o : ObjId} (h : s.arena.HasObject o) :
    ∃ text, s.arena.objectText o = .ok text := by
  obtain ⟨f, hres, -⟩ := hs (.object o) h
  cases hres with
  | object ho => exact ⟨_, bind_eq_ok.2 ⟨_, ho, rfl⟩⟩

theorem Grounded.contextText (hs : s.Grounded p how extra) {c : ContextId}
    (h : s.arena.HasContext c) : ∃ text, s.arena.contextText c = .ok text := by
  obtain ⟨f, hres, -⟩ := hs (.context c) h
  cases hres with
  | context hc =>
    obtain ⟨x, hx, ht⟩ := hc
    exact ⟨_, bind_eq_ok.2 ⟨x, hx, bind_eq_ok.2 ⟨_, mapM_eq_ok.2 ht.2, rfl⟩⟩⟩

/-! ## Younger and older objects -/

theorem layered_opening (discipline : Discipline) : (opening p how discipline).arena.Layered := by
  rintro inner o ⟨x, heap, hx, -⟩
  cases Arena.object_eq_ok.1 hx

theorem layered_of_adds (hg : s.Grounded p how extra) (hs : s.arena.Layered)
    (hext : s.arena.Extends t.arena) {task : Task} {next : List Task}
    (hadds : Adds p how s task next t) : t.arena.Layered := by
  rintro inner o ⟨x, heap, hx, hheap, hinner⟩
  rcases hadds.objects hx with hx | ⟨hindex, c, context, -, hc, hheap'⟩
  · obtain ⟨x', hx', heap', hheap'⟩ := hg.created (r := .object o) ⟨x, hx⟩
    rw [hx] at hx'
    cases hx'
    have heq := hext.context hheap'
    rw [hheap] at heq
    cases heq
    exact hs inner o ⟨x, heap, hx, hheap', hinner⟩
  · rw [hheap] at hheap'
    cases hheap'
    -- The elements come from the context of the allocating method, which was there before.
    obtain ⟨x', hx', hobjects⟩ := hg.created (r := .context c) ⟨context, hc⟩
    rw [hc] at hx'
    cases hx'
    obtain ⟨y, hy⟩ := hobjects inner (Sensitivity.mem_of_mem_heap hinner)
    rw [hindex]
    exact exists_get?_iff_lt.1 ⟨y, Arena.object_eq_ok.1 hy⟩

theorem Calm.layered (h : Calm s t) (hs : s.arena.Layered) : t.arena.Layered := by
  rintro inner o ⟨x, heap, hx, hheap, hinner⟩
  rw [h.object] at hx
  rw [h.context] at hheap
  exact hs inner o ⟨x, heap, hx, hheap, hinner⟩

variable (p how) in
/-- The invariant of a run in which calls are anchored and objects layered. -/
structure Ordered (s : State) (tasks : List Task) : Prop extends Anchored p how s tasks where
  layered : s.arena.Layered

theorem layered_of_reaches (hp : p.Accepted) (h : Reaches p how (Between extra) s) :
    s.arena.Layered := by
  have hordered : s.Ordered p how [] := by
    refine h.invariant hp (fun discipline => ⟨anchored_opening discipline,
      layered_opening discipline⟩) (fun hg hs hrun => ?_)
      fun hs hcalm htasks => ⟨hs.toAnchored.calm hp hcalm htasks, hcalm.layered hs.layered⟩
    have hadds := perform_adds hp (fun e he => hs.bound (he ▸ List.mem_cons_self)) hrun
    exact ⟨hs.toAnchored.perform hp hrun,
      layered_of_adds hg hs.layered (perform_effect hp hrun).1.arena hadds⟩
  exact hordered.layered

/-! ## Later states -/

variable (p how) in
/-- How a run may go on: it is started once more, a waiting pointer is served, or an edge is added
by hand. -/
inductive Continues (s : State) : State → Prop
  | restart {limit : Nat} {t : State} : s.start p how limit = .ok t → Continues s t
  | advance {t : State} : s.Advances p how t → Continues s t
  | addFlow {i j x y} : s.arena.pointer i = .ok x → s.arena.pointer j = .ok y →
      Continues s (s.addFlow i j)

/-- What has a number is not numbered again. -/
theorem contextId_of_context {c : ContextId} {x : Context} (h : s.arena.context c = .ok x) :
    s.contextId x = (c, s) := by
  have hindex := Roster.indexOf?_eq_some_iff.2 (Arena.context_eq_ok.1 h)
  have hinsert : s.arena.contexts.insert x = s.arena.contexts :=
    Roster.insert_of_contains (by simp [Roster.contains, hindex])
  show (⟨(s.arena.contexts.indexOf? x).getD _⟩, { s with arena := { s.arena with
    contexts := s.arena.contexts.insert x } }) = (c, s)
  rw [hindex, hinsert]
  rfl

/-- Starting again changes nothing. -/
theorem eq_of_restart (hp : p.Accepted) (hs : Reaches p how anyExtra s) {limit : Nat}
    (h : s.start p how limit = .ok t) : t = s := by
  obtain ⟨c, hc, hentries⟩ := (anchored_of_reaches hp hs).entry
  obtain ⟨c', hc', hdone⟩ := (closedUpTo_of_reaches hp hs).entry
  obtain rfl := Arena.context_inj hc hc'
  have hreachable : s.calls.isReachable (c, p.entry) = true :=
    Roster.contains_iff.2 (hdone.resolve_right (by simp))
  have hentry : s.calls.addEntry (c, p.entry) = s.calls := by
    have hinsert : s.calls.entries.insert (c, p.entry) = s.calls.entries :=
      Roster.insert_of_contains (Roster.contains_iff.2 (by simp [hentries]))
    rw [CallGraph.addEntry, hinsert]
  simp only [start, contextId_of_context hc, hentry] at h
  cases limit with
  | zero => cases h
  | succ limit =>
    obtain ⟨⟨next, u⟩, hrun, h⟩ := bind_eq_ok.1 h
    simp only [perform_enter, hreachable, if_true] at hrun
    cases hrun
    cases limit <;> cases h <;> rfl

theorem Advances.extends (hp : p.Accepted) (hb : s.Balanced) (h : s.Advances p how t) :
    s.Extends t := by
  obtain ⟨i, objects, rest, order, ht, -, tasks, limit, -, hd⟩ := h
  exact (arrival_extends hb ht).trans (drain_extends hp hd).1

/-- However a run goes on, it comes to a state of a run, in which numbers mean what they meant. -/
theorem Continues.extends (hp : p.Accepted) (hs : Reaches p how anyExtra s)
    (h : Continues p how s t) : Reaches p how anyExtra t ∧ s.arena.Extends t.arena := by
  cases h with
  | restart hstart =>
    obtain rfl := eq_of_restart hp hs hstart
    exact ⟨hs, .refl _⟩
  | advance ha => exact ⟨.step hs ha, (ha.extends hp (balanced_of_reaches hp hs)).arena⟩
  | addFlow hi hj => exact ⟨.addFlow hs hi hj trivial, (addFlow_prepares hj).arena⟩

theorem extends_of_continues (hp : p.Accepted) (hs : Reaches p how anyExtra s)
    (h : Relation.ReflTransGen (Continues p how) s t) :
    Reaches p how anyExtra t ∧ s.arena.Extends t.arena := by
  induction h with
  | refl => exact ⟨hs, .refl _⟩
  | tail _ hstep ih =>
    obtain ⟨hreaches, hext⟩ := hstep.extends hp ih.1
    exact ⟨hreaches, ih.2.trans hext⟩

theorem continues_of_run {limit : Nat} : ∀ {n k : Nat} {s t : State},
    run p how limit n s = .ok (k, t) → Relation.ReflTransGen (Continues p how) s t
  | 0, _, _, _, h => by
    cases h
    exact .refl
  | n + 1, _, s, t, h => by
    obtain ⟨r, hr, h⟩ := bind_eq_ok.1 h
    cases r with
    | none =>
      cases h
      exact .refl
    | some u => exact .head (.advance (advances_of_step hr)) (continues_of_run h)

/-! ## Identities -/

variable (how) in
/-- The numbers of a state identify what they stand for, and the objects in contexts can be spelled
out. -/
structure Identified (s : State) : Prop where
  contexts : s.arena.contexts.Numbered
  objects : s.arena.objects.Numbered
  pointers : s.arena.pointers.Numbered
  /-- Each pointer has a points-to set, and nothing else has one. -/
  sets : ∀ i, (∃ set, s.arena.pointsTo i = .ok set) ↔ s.arena.HasPointer i
  created : ∀ r, s.Finds r → s.arena.Created r
  limit : ∀ {c x}, s.arena.context c = .ok x → x.limit = how.limit ∧ x.items.length ≤ how.limit
  layered : s.arena.Layered
  wellFounded : WellFounded s.arena.Inside
  objectText : ∀ {o}, s.arena.HasObject o → ∃ text, s.arena.objectText o = .ok text
  contextText : ∀ {c}, s.arena.HasContext c → ∃ text, s.arena.contextText c = .ok text

theorem exists_pointsTo_iff (a : Arena) (i : PointerId) :
    (∃ set, a.pointsTo i = .ok set) ↔ a.HasPointer i := by
  simp only [Arena.pointsTo, Arena.HasPointer, Arena.pointer_eq_ok, orUnknown_eq_ok,
    exists_get?_iff_lt, ← a.size_sets]
  constructor
  · rintro ⟨set, h⟩
    exact (Array.getElem?_eq_some_iff.1 h).1
  · intro h
    exact ⟨_, Array.getElem?_eq_getElem h⟩

/-- **Identities.** Whenever a step has ended, numbers stand for distinct things that have been
created, contexts are no longer than their common limit, and objects are older than those that have
them in their contexts. However the run goes on, no number changes its meaning. -/
theorem identities_stay (hp : p.Accepted) (hs : Reaches p how anyExtra s)
    (ht : Relation.ReflTransGen (Continues p how) s t) :
    s.Identified how ∧ t.Identified how ∧ s.arena.Extends t.arena := by
  have hidentified : ∀ {s}, Reaches p how anyExtra s → s.Identified how := by
    intro s hs
    obtain ⟨extra, hextra⟩ := exists_extra hp hs
    have hg := grounded_of_reaches hp hextra
    have hlayered := layered_of_reaches hp hextra
    refine ⟨Roster.numbered _, Roster.numbered _, Roster.numbered _, exists_pointsTo_iff s.arena,
      fun r hr => hg.created hr, fun {c x} hx => ?_, hlayered, hlayered.wellFounded,
      hg.objectText, hg.contextText⟩
    have hlimit := hg.limit hx
    exact ⟨hlimit, hlimit ▸ x.length_le⟩
  obtain ⟨htreaches, hext⟩ := extends_of_continues hp hs ht
  exact ⟨hidentified hs, hidentified htreaches, hext⟩

/-- Objects are nested ever deeper in `nesting`. After six steps the fourth object has the third one
in its heap context, which was there two steps before. -/
theorem nesting_identities_stay :
    ∃ s t, Reaches (.index Program.nesting) (.object 2) anyExtra s ∧
      Relation.ReflTransGen (Continues (.index Program.nesting) (.object 2)) s t ∧
      s.arena.objects.size = 3 ∧ t.arena.Inside ⟨2⟩ ⟨3⟩ ∧
      s.Identified (.object 2) ∧ t.Identified (.object 2) ∧ s.arena.Extends t.arena := by
  obtain ⟨s, hs, htest⟩ := exists_reaches (.index Program.nesting) (.object 2) .fifo 100 4
    (fun s => decide (s.arena.objects.size = 3) &&
      (run (.index Program.nesting) (.object 2) 100 2 s).toOption.any fun r =>
        (r.2.arena.object ⟨3⟩ >>= fun x => r.2.arena.context x.context).toOption.any fun heap =>
          decide (.object ⟨2⟩ ∈ heap.items)) (by decide +kernel)
  obtain ⟨hsize, htest⟩ := Bool.and_eq_true_iff.1 htest
  obtain ⟨⟨n, t⟩, hrun, htest⟩ := exists_ok_of_any _ _ htest
  obtain ⟨heap, hheap, hinner⟩ := exists_ok_of_any _ _ htest
  obtain ⟨x, hx, hheap⟩ := bind_eq_ok.1 hheap
  have ht := continues_of_run hrun
  exact ⟨s, t, hs, ht, of_decide_eq_true hsize, ⟨x, heap, hx, hheap, of_decide_eq_true hinner⟩,
    identities_stay Program.nesting_accepted hs ht⟩

end State

end PointsTo

end ObjectFlow
