import Mathlib.Data.Fintype.Card
import Mathlib.Data.List.Forall2
import ObjectFlow.PointsTo.Origin
import ObjectFlow.PointsTo.Sensitivity
import ObjectFlow.Proofs.Accepted
import ObjectFlow.Proofs.Growth

/-!
# Reading an arena without its numbers

Two runs of an analysis number contexts, objects and pointers differently, so what they have found
can be compared only after the numbers have been resolved. `Arena.origin` resolves an element of a
context. It needs a bound on how deep objects are nested, and the number of objects is enough:
`origin_eq_ok`.

A context resolves to a `History`, an object to an `ObjectOrigin` and a pointer to a `Place`.
Resolving is a partial function that survives every extension of the arena (`Recalls.mono`,
`Spells.mono`, `Points.mono`) and that forgets nothing: things that read the same have the same
number (`Recalls.inj`, `Spells.inj`, `Points.inj`). A sensitivity chooses contexts in the same way
before and after resolving (`Tells.afterCall`, `Tells.allocated`).
-/

namespace ObjectFlow

/-! ## Origins -/

theorem mapM_eq_ok {α β : Type} {f : α → Except Fault β} :
    ∀ {as : List α} {bs : List β},
      as.mapM f = .ok bs ↔ List.Forall₂ (fun a b => f a = .ok b) as bs
  | [], bs => by
    rw [List.mapM_nil, pure_eq_ok, List.forall₂_nil_left_iff, eq_comm]
  | a :: as, bs => by
    rw [List.mapM_cons, bind_eq_ok, List.forall₂_cons_left_iff]
    constructor
    · rintro ⟨b, hb, h⟩
      obtain ⟨bs', hbs, h⟩ := bind_eq_ok.1 h
      exact ⟨b, bs', hb, mapM_eq_ok.1 hbs, (pure_eq_ok.1 h).symm⟩
    · rintro ⟨b, bs', hb, hbs, rfl⟩
      exact ⟨b, hb, bind_eq_ok.2 ⟨bs', mapM_eq_ok.2 hbs, rfl⟩⟩

namespace Arena

variable {a b : Arena} {e e' : ContextElement} {x y : Origin} {o : ObjId} {d d' : Nat}

theorem originWithin_site (s : StmtId) : a.originWithin d (.site s) = .ok (.site s) := by
  cases d <;> rfl

theorem originWithin_type (c : ClassId) : a.originWithin d (.type c) = .ok (.type c) := by
  cases d <;> rfl

theorem originWithin_object :
    a.originWithin (d + 1) (.object o) = .ok x ↔
      ∃ obj heap items, a.object o = .ok obj ∧ a.context obj.context = .ok heap ∧
        List.Forall₂ (fun e y => a.originWithin d e = .ok y) heap.items items ∧
        x = .object obj.site obj.ty obj.container heap.limit items := by
  rw [originWithin, bind_eq_ok]
  constructor
  · rintro ⟨obj, ho, h⟩
    obtain ⟨heap, hh, h⟩ := bind_eq_ok.1 h
    obtain ⟨items, hi, h⟩ := bind_eq_ok.1 h
    exact ⟨obj, heap, items, ho, hh, mapM_eq_ok.1 hi, (pure_eq_ok.1 h).symm⟩
  · rintro ⟨obj, heap, items, ho, hh, hi, rfl⟩
    exact ⟨obj, ho, bind_eq_ok.2 ⟨heap, hh, bind_eq_ok.2 ⟨items, mapM_eq_ok.2 hi, rfl⟩⟩⟩

/-- A larger arena and a larger bound do not change an origin. -/
theorem originWithin_mono (hab : a.Extends b) (hd : d ≤ d') (h : a.originWithin d e = .ok x) :
    b.originWithin d' e = .ok x := by
  induction d generalizing d' e x with
  | zero =>
    cases e with
    | site s => cases d' <;> exact h
    | type c => cases d' <;> exact h
    | object o => cases h
  | succ d ih =>
    obtain ⟨d', rfl⟩ : ∃ k, d' = k + 1 := ⟨d' - 1, by omega⟩
    cases e with
    | site s => exact h
    | type c => exact h
    | object o =>
      obtain ⟨obj, heap, items, ho, hh, hi, rfl⟩ := originWithin_object.1 h
      exact originWithin_object.2 ⟨obj, heap, items, hab.object ho, hab.context hh,
        hi.imp fun _ _ he => ih (by omega) he, rfl⟩

/-- The bound `d` is the least one that suffices for an element. -/
def Needs (a : Arena) (d : Nat) (e : ContextElement) : Prop :=
  (∃ x, a.originWithin d e = .ok x) ∧ ∀ k < d, ∀ x, a.originWithin k e ≠ .ok x

theorem exists_needs (h : a.originWithin d e = .ok x) : ∃ k ≤ d, a.Needs k e := by
  classical
  have hex : ∃ k, ∃ y, a.originWithin k e = .ok y := ⟨d, x, h⟩
  exact ⟨Nat.find hex, Nat.find_min' hex ⟨x, h⟩, Nat.find_spec hex,
    fun k hk y hy => Nat.find_min hex hk ⟨y, hy⟩⟩

/-- What needs the bound `d + 1` is an object, and something in its context needs `d`. -/
theorem Needs.succ (h : a.Needs (d + 1) e) :
    (∃ o, e = .object o) ∧ (0 < d → ∃ e', a.Needs d e') := by
  obtain ⟨⟨x, hx⟩, hmin⟩ := h
  cases e with
  | site s => exact absurd (originWithin_site s) (hmin d (by omega) (.site s))
  | type c => exact absurd (originWithin_type c) (hmin d (by omega) (.type c))
  | object o =>
    refine ⟨⟨o, rfl⟩, fun hd => ?_⟩
    obtain ⟨d, rfl⟩ : ∃ k, d = k + 1 := ⟨d - 1, by omega⟩
    obtain ⟨obj, heap, items, ho, hh, hi, rfl⟩ := originWithin_object.1 hx
    by_cases hall : ∀ e' y, a.originWithin (d + 1) e' = .ok y → a.originWithin d e' = .ok y
    · -- Otherwise the bound `d + 1` would do for the object itself.
      have ho' := originWithin_object.2 ⟨obj, heap, items, ho, hh, hi.imp fun _ _ => hall _ _, rfl⟩
      exact absurd ho' (hmin (d + 1) (by omega) _)
    · simp only [not_forall] at hall
      obtain ⟨e', y, hy, hne⟩ := hall
      refine ⟨e', ⟨y, hy⟩, fun k hk z hz => hne ?_⟩
      have hz' := originWithin_mono (.refl a) (show k ≤ d by omega) hz
      have hzy := originWithin_mono (.refl a) (Nat.le_succ d) hz'
      rw [hy] at hzy
      cases hzy
      exact hz'

/-- Below what an element needs, each bound is needed by some object. -/
theorem Needs.exists_object (h : a.Needs d e) :
    ∀ k, 0 < k → k ≤ d → ∃ o, a.Needs k (.object o) := by
  induction d generalizing e with
  | zero =>
    intro k hk hkd
    omega
  | succ d ih =>
    obtain ⟨⟨o, rfl⟩, hrest⟩ := h.succ
    intro k hk hkd
    rcases Nat.lt_or_ge d k with hlt | hle
    · obtain rfl : k = d + 1 := by omega
      exact ⟨o, h⟩
    · obtain ⟨e', he'⟩ := hrest (by omega)
      exact ih he' k hk hle

theorem index_lt_of_needs (h : a.Needs (d + 1) (.object o)) : o.index < a.objects.size := by
  obtain ⟨⟨x, hx⟩, -⟩ := h
  obtain ⟨obj, -, -, ho, -⟩ := originWithin_object.1 hx
  exact (Array.getElem?_eq_some_iff.1 (object_eq_ok.1 ho)).1

/-- Objects are not nested deeper than there are objects: different bounds are needed by different
objects. -/
theorem Needs.le_size (h : a.Needs d e) : d ≤ a.objects.size := by
  have hex := fun k : Fin d => h.exists_object (k + 1) (by omega) (by omega)
  choose f hf using hex
  have hinj : Function.Injective fun k : Fin d =>
      (⟨(f k).index, index_lt_of_needs (hf k)⟩ : Fin a.objects.size) := by
    intro k l hkl
    have hidx : (f k).index = (f l).index := congrArg Fin.val hkl
    have hfkl : f k = f l := congrArg Id.mk hidx
    obtain ⟨⟨x, hx⟩, hk⟩ := hf k
    obtain ⟨⟨y, hy⟩, hl⟩ := hf l
    rw [← hfkl] at hy hl
    rcases Nat.lt_trichotomy k.val l.val with hlt | heq | hgt
    · exact absurd hx (hl _ (by omega) x)
    · exact Fin.ext heq
    · exact absurd hy (hk _ (by omega) y)
  simpa using Fintype.card_le_of_injective _ hinj

/-- **Origins.** The number of objects is bound enough. -/
theorem origin_eq_ok : a.origin e = .ok x ↔ ∃ d, a.originWithin d e = .ok x := by
  constructor
  · intro h
    exact ⟨_, h⟩
  · rintro ⟨d, h⟩
    obtain ⟨k, hkd, hk⟩ := exists_needs h
    obtain ⟨y, hy⟩ := hk.1
    have hyx := originWithin_mono (.refl a) hkd hy
    rw [h] at hyx
    cases hyx
    exact originWithin_mono (.refl a) hk.le_size hy

theorem origin_mono (hab : a.Extends b) (h : a.origin e = .ok x) : b.origin e = .ok x := by
  obtain ⟨d, hd⟩ := origin_eq_ok.1 h
  exact origin_eq_ok.2 ⟨d, originWithin_mono hab le_rfl hd⟩

/-- The origin of an object consists of what the arena says about the object. -/
theorem origin_object :
    a.origin (.object o) = .ok x ↔
      ∃ obj heap items, a.object o = .ok obj ∧ a.context obj.context = .ok heap ∧
        List.Forall₂ (fun e y => a.origin e = .ok y) heap.items items ∧
        x = .object obj.site obj.ty obj.container heap.limit items := by
  constructor
  · intro h
    have h' := originWithin_mono (.refl a) (Nat.le_succ _) h
    obtain ⟨obj, heap, items, ho, hh, hi, rfl⟩ := originWithin_object.1 h'
    exact ⟨obj, heap, items, ho, hh, hi, rfl⟩
  · rintro ⟨obj, heap, items, ho, hh, hi, rfl⟩
    exact origin_eq_ok.2 ⟨_, originWithin_object.2 ⟨obj, heap, items, ho, hh, hi, rfl⟩⟩

theorem originWithin_inj (h : a.originWithin d e = .ok x) (h' : a.originWithin d e' = .ok x) :
    e = e' := by
  induction d generalizing e e' x with
  | zero => cases e <;> cases e' <;> cases h <;> cases h' <;> rfl
  | succ d ih =>
    cases e with
    | site s => cases h; cases e' with
      | site s' => cases h'; rfl
      | type c' => cases h'
      | object o' =>
        obtain ⟨_, _, _, _, _, _, hx⟩ := originWithin_object.1 h'
        cases hx
    | type c => cases h; cases e' with
      | site s' => cases h'
      | type c' => cases h'; rfl
      | object o' =>
        obtain ⟨_, _, _, _, _, _, hx⟩ := originWithin_object.1 h'
        cases hx
    | object o =>
      obtain ⟨obj, heap, items, ho, hh, hi, rfl⟩ := originWithin_object.1 h
      cases e' with
      | site s' => cases h'
      | type c' => cases h'
      | object o' =>
        obtain ⟨obj', heap', items', ho', hh', hi', hx⟩ := originWithin_object.1 h'
        injection hx with hsite hty hcontainer hlimit hitems
        rw [← hitems] at hi'
        have hinj : Relator.LeftUnique fun e x => a.originWithin d e = .ok x := fun _ _ _ => ih
        have hheap : heap.items = heap'.items := List.left_unique_forall₂' hinj hi hi'
        obtain ⟨limit, elements, hle⟩ := heap
        obtain ⟨limit', elements', hle'⟩ := heap'
        simp only at hlimit hheap
        subst hlimit hheap
        have hobj : obj = obj' := by
          obtain ⟨_, _, _, c⟩ := obj
          obtain ⟨_, _, _, c'⟩ := obj'
          obtain rfl := context_inj hh hh'
          simp_all
        rw [← hobj] at ho'
        rw [object_inj ho ho']

/-- Elements with the same origin are the same. -/
theorem origin_inj (h : a.origin e = .ok x) (h' : a.origin e' = .ok x) : e = e' :=
  originWithin_inj h h'

end Arena

/-! ## Histories, objects and places -/

/-- A context in which objects are spelled out. -/
abbrev History := Recent Origin

/-- An abstract object spelled out: what allocates it, its type, the class of the allocating method
and the heap context. -/
structure ObjectOrigin where
  site : StmtId
  ty : Ty
  container : ClassId
  context : History

/-- An object as an element of a history. -/
def ObjectOrigin.origin (o : ObjectOrigin) : Origin :=
  .object o.site o.ty o.container o.context.limit o.context.items

/-- A pointer in which contexts and objects are spelled out. -/
inductive Place
  | var (c : History) (v : VarId)
  | instanceField (o : ObjectOrigin) (f : FieldId)
  | staticField (f : FieldId)
  | elements (o : ObjectOrigin)

theorem Recent.ext {α : Type} {r s : Recent α} (hlimit : r.limit = s.limit)
    (hitems : r.items = s.items) : r = s := by
  cases r
  cases s
  simp_all

namespace Arena

variable (a : Arena)

/-- A context tells a history: its elements have the origins of the history. -/
def Tells (c : Context) (h : History) : Prop :=
  c.limit = h.limit ∧ List.Forall₂ (fun e x => a.origin e = .ok x) c.items h.items

/-- The context with this number tells a history. -/
def Recalls (c : ContextId) (h : History) : Prop := ∃ context, a.context c = .ok context ∧
  a.Tells context h

/-- The object with this number is the one spelled out. -/
def Spells (o : ObjId) (x : ObjectOrigin) : Prop := a.origin (.object o) = .ok x.origin

/-- A pointer names a place. -/
inductive Names : Pointer → Place → Prop
  | var {c h} (v : VarId) : a.Recalls c h → Names (.var c v) (.var h v)
  | instanceField {o x} (f : FieldId) :
      a.Spells o x → Names (.instanceField o f) (.instanceField x f)
  | staticField (f : FieldId) : Names (.staticField f) (.staticField f)
  | elements {o x} : a.Spells o x → Names (.elements o) (.elements x)

/-- The pointer with this number names a place. -/
def Points (i : PointerId) (q : Place) : Prop := ∃ x, a.pointer i = .ok x ∧ a.Names x q

variable {a} {b : Arena} {c c' : ContextId} {context context' : Context} {h h' : History}
  {o o' : ObjId} {x x' : ObjectOrigin} {u u' : Pointer} {q q' : Place} {i i' : PointerId}

theorem spells_iff : a.Spells o x ↔ ∃ obj, a.object o = .ok obj ∧ a.Recalls obj.context x.context ∧
    obj.site = x.site ∧ obj.ty = x.ty ∧ obj.container = x.container := by
  rw [Spells, origin_object]
  constructor
  · rintro ⟨obj, heap, items, ho, hh, hi, hx⟩
    injection hx with hsite hty hcontainer hlimit hitems
    exact ⟨obj, ho, ⟨heap, hh, hlimit.symm, hitems ▸ hi⟩, hsite.symm, hty.symm, hcontainer.symm⟩
  · rintro ⟨obj, ho, ⟨heap, hh, hlimit, hi⟩, hsite, hty, hcontainer⟩
    refine ⟨obj, heap, _, ho, hh, hi, ?_⟩
    rw [ObjectOrigin.origin, hsite, hty, hcontainer, hlimit]

/-! Resolving survives extensions. -/

theorem Tells.mono (hab : a.Extends b) (ht : a.Tells context h) : b.Tells context h :=
  ⟨ht.1, ht.2.imp fun _ _ => origin_mono hab⟩

theorem Recalls.mono (hab : a.Extends b) : a.Recalls c h → b.Recalls c h := by
  rintro ⟨context, hc, ht⟩
  exact ⟨context, hab.context hc, ht.mono hab⟩

theorem Spells.mono (hab : a.Extends b) (ho : a.Spells o x) : b.Spells o x := origin_mono hab ho

theorem Names.mono (hab : a.Extends b) (hn : a.Names u q) : b.Names u q := by
  cases hn with
  | var v hc => exact .var v (hc.mono hab)
  | instanceField f ho => exact .instanceField f (ho.mono hab)
  | staticField f => exact .staticField f
  | elements ho => exact .elements (ho.mono hab)

theorem Points.mono (hab : a.Extends b) : a.Points i q → b.Points i q := by
  rintro ⟨u, hu, hn⟩
  exact ⟨u, hab.pointer hu, hn.mono hab⟩

/-! Resolving is a function. -/

theorem Tells.unique (ht : a.Tells context h) (ht' : a.Tells context h') : h = h' := by
  refine Recent.ext (ht.1.symm.trans ht'.1) ?_
  refine List.right_unique_forall₂' (fun e y z hx hy => ?_) ht.2 ht'.2
  rw [hx] at hy
  cases hy
  rfl

theorem Recalls.tells (hc : a.Recalls c h) (hcontext : a.context c = .ok context) :
    a.Tells context h := by
  obtain ⟨context', hc', ht⟩ := hc
  rw [hcontext] at hc'
  cases hc'
  exact ht

theorem Recalls.unique (hc : a.Recalls c h) (hc' : a.Recalls c h') : h = h' := by
  obtain ⟨context, hcontext, ht⟩ := hc
  exact ht.unique (hc'.tells hcontext)

theorem Spells.unique (ho : a.Spells o x) (ho' : a.Spells o x') : x = x' := by
  obtain ⟨obj, hobj, hc, hsite, hty, hcontainer⟩ := spells_iff.1 ho
  obtain ⟨obj', hobj', hc', hsite', hty', hcontainer'⟩ := spells_iff.1 ho'
  rw [hobj] at hobj'
  cases hobj'
  obtain ⟨_, _, _, _⟩ := x
  obtain ⟨_, _, _, _⟩ := x'
  have hcontext := hc.unique hc'
  simp_all

theorem Names.unique (hn : a.Names u q) (hn' : a.Names u q') : q = q' := by
  cases hn with
  | var v hc =>
    cases hn' with
    | var _ hc' => rw [hc.unique hc']
  | instanceField f ho =>
    cases hn' with
    | instanceField _ ho' => rw [ho.unique ho']
  | staticField f => cases hn'; rfl
  | elements ho =>
    cases hn' with
    | elements ho' => rw [ho.unique ho']

theorem Points.names (hi : a.Points i q) (hu : a.pointer i = .ok u) : a.Names u q := by
  obtain ⟨u', hu', hn⟩ := hi
  rw [hu] at hu'
  cases hu'
  exact hn

theorem Points.unique (hi : a.Points i q) (hi' : a.Points i q') : q = q' := by
  obtain ⟨u, hu, hn⟩ := hi
  exact hn.unique (hi'.names hu)

/-! Resolving forgets nothing. -/

theorem Tells.inj (ht : a.Tells context h) (ht' : a.Tells context' h) : context = context' := by
  refine Recent.ext (ht.1.trans ht'.1.symm) ?_
  have hinj : Relator.LeftUnique fun e x => a.origin e = .ok x := fun _ _ _ => origin_inj
  exact List.left_unique_forall₂' hinj ht.2 ht'.2

theorem Recalls.inj (hc : a.Recalls c h) (hc' : a.Recalls c' h) : c = c' := by
  obtain ⟨context, hcontext, ht⟩ := hc
  obtain ⟨context', hcontext', ht'⟩ := hc'
  obtain rfl := ht.inj ht'
  exact context_inj hcontext hcontext'

theorem Spells.inj (ho : a.Spells o x) (ho' : a.Spells o' x) : o = o' :=
  ContextElement.object.inj (origin_inj ho ho')

theorem Names.inj (hn : a.Names u q) (hn' : a.Names u' q) : u = u' := by
  cases hn with
  | var v hc =>
    cases hn' with
    | var _ hc' => rw [hc.inj hc']
  | instanceField f ho =>
    cases hn' with
    | instanceField _ ho' => rw [ho.inj ho']
  | staticField f => cases hn'; rfl
  | elements ho =>
    cases hn' with
    | elements ho' => rw [ho.inj ho']

theorem Points.inj (hi : a.Points i q) (hi' : a.Points i' q) : i = i' := by
  obtain ⟨u, hu, hn⟩ := hi
  obtain ⟨u', hu', hn'⟩ := hi'
  obtain rfl := hn.inj hn'
  exact pointer_inj hu hu'

end Arena

/-! ## Choosing contexts -/

namespace Sensitivity

/-- The history in which execution starts. -/
def startHistory (s : Sensitivity) : History := .empty s.limit

/-- The history in which a method runs that is called without a receiver. -/
def historyAfterStaticCall (s : Sensitivity) (caller : History) (site : StmtId) : History :=
  match s with
  | insensitive => s.startHistory
  | callSite _ => caller.push (.site site)
  | object _ | type _ => caller

/-- The history in which a method runs that is called on an object. -/
def historyAfterCall (s : Sensitivity) (caller : History) (site : StmtId)
    (receiver : ObjectOrigin) : History :=
  match s with
  | insensitive => s.startHistory
  | callSite _ => caller.push (.site site)
  | object _ => receiver.context.push receiver.origin
  | type _ => receiver.context.push (.type receiver.container)

/-- The history with which the objects are tagged that a method allocates. -/
def heapHistory (s : Sensitivity) (method : History) : History :=
  match s with
  | insensitive => s.startHistory
  | callSite _ | object _ | type _ => method.newest (method.limit - 1)

end Sensitivity

namespace Arena

variable {a : Arena} {context heap : Context} {h : History} {how : Sensitivity}

theorem Tells.push (ht : a.Tells context h) {e : ContextElement} {x : Origin}
    (he : a.origin e = .ok x) : a.Tells (context.push e) (h.push x) := by
  refine ⟨ht.1, ?_⟩
  rw [Recent.items_push, Recent.items_push, ht.1]
  exact List.forall₂_take _ (.cons he ht.2)

theorem Tells.newest (ht : a.Tells context h) (n : Nat) :
    a.Tells (context.newest n) (h.newest n) := by
  refine ⟨ht.1, ?_⟩
  rw [Recent.items_newest, Recent.items_newest]
  exact List.forall₂_take _ ht.2

theorem tells_start : a.Tells how.start how.startHistory := by
  refine ⟨rfl, ?_⟩
  rw [Sensitivity.start, Sensitivity.startHistory, Recent.items_empty, Recent.items_empty]
  exact .nil

theorem Tells.afterStaticCall (ht : a.Tells context h) (how : Sensitivity) (site : StmtId) :
    a.Tells (how.afterStaticCall context site) (how.historyAfterStaticCall h site) := by
  cases how with
  | insensitive => exact tells_start
  | callSite n => exact ht.push (originWithin_site site)
  | object n => exact ht
  | type n => exact ht

theorem Tells.afterCall (ht : a.Tells context h) (how : Sensitivity) (site : StmtId) {o : ObjId}
    {x : ObjectOrigin} (ho : a.Spells o x) (hh : a.Tells heap x.context) :
    a.Tells (how.afterCall context site ⟨o, x.container, heap⟩)
      (how.historyAfterCall h site x) := by
  cases how with
  | insensitive => exact tells_start
  | callSite n => exact ht.push (originWithin_site site)
  | object n => exact hh.push ho
  | type n => exact hh.push (originWithin_type x.container)

theorem Tells.allocated (ht : a.Tells context h) (how : Sensitivity) :
    a.Tells (how.heap context) (how.heapHistory h) := by
  have hnewest : a.Tells (context.newest (context.limit - 1)) (h.newest (h.limit - 1)) := by
    rw [ht.1]
    exact ht.newest _
  cases how with
  | insensitive => exact tells_start
  | callSite n => exact hnewest
  | object n => exact hnewest
  | type n => exact hnewest

end Arena

end ObjectFlow
