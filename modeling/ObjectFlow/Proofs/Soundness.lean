import ObjectFlow.Proofs.Closure
import ObjectFlow.Proofs.Execution

/-!
# The points-to analysis is sound

A finished analysis represents every machine that the program can come to (`Represents`): each frame
runs in some context in which its method is reachable, each object of the store is one of the
abstract objects, and a reference that is held anywhere is in the points-to set of the place where
it is held. Which context a frame has and which abstract object an address stands for is fixed when
the frame is entered and when the object is allocated.

Only that the analysis is closed under its rules is used (`Represents.step`), so the result holds
for every order in which the analysis has worked.
-/

namespace ObjectFlow.PointsTo.State

open Execution

/-- The pointer that stands for a place in the store. -/
def slotPointer (objectAt : Nat → ObjId) : Slot → Pointer
  | .field a f => .instanceField (objectAt a) f
  | .static f => .staticField f
  | .element a _ => .elements (objectAt a)

/-- A place in the store belongs to a class or to an object that has been allocated. -/
def InUse (size : Nat) : Slot → Prop
  | .field a _ | .element a _ => a < size
  | .static _ => True

section Represents

variable (s : State) (objectAt : Nat → ObjId) (size : Nat)

/-- A value is covered at a pointer: if it is a reference, it is in the points-to set. -/
def Covers (x : Pointer) (value : Datum) : Prop :=
  ∀ a, value = .ref a → a < size ∧ s.Holds x (objectAt a)

/-- A call graph edge leads from the next frame of a stack to a method that runs on top of it. -/
def CalledFrom (m : MethodId) (c : ContextId) : List Activation → List ContextId → Prop
  | g :: _, d :: _ => ∃ kind, ⟨kind, (d, g.site), (c, m)⟩ ∈ s.calls.edges.toList
  | _, _ => True

/-- Each frame of a stack runs in the context listed for it. Its method is reachable there, it was
called from the frame below, and its local variables are covered. -/
inductive Stacked : List Activation → List ContextId → Prop
  | nil : Stacked [] []
  | cons {f fs c cs} : (c, f.method) ∈ s.calls.reachable.toList →
      (∀ v, s.Covers objectAt size (.var c v) (f.locals v)) → s.CalledFrom f.method c fs cs →
      Stacked fs cs → Stacked (f :: fs) (c :: cs)

end Represents

/-- A state of the analysis represents a machine. The frames run in the contexts listed for them,
and the object at an address is one of the objects that `objectAt` gives. -/
structure Represents (s : State) (m : Machine) (objectAt : Nat → ObjId)
    (contexts : List ContextId) : Prop where
  stack : s.Stacked objectAt m.store.objects.length m.frames contexts
  /-- An abstract object has the site and the type of the objects that it stands for. -/
  objects : ∀ {a object}, m.store.objects[a]? = some object →
    ∃ o, s.arena.object (objectAt a) = .ok o ∧ o.site = object.site ∧ o.ty = object.ty
  /-- What fields and array elements hold is covered. -/
  slots : ∀ slot, s.Covers objectAt m.store.objects.length (slotPointer objectAt slot)
    (m.store.slots slot)
  /-- Only places in use hold references. -/
  inUse : ∀ {slot a}, m.store.slots slot = .ref a → InUse m.store.objects.length slot

variable {p : Program} {how : Sensitivity} {s : State} {objectAt : Nat → ObjId} {size : Nat}
  {m m' : Machine} {contexts : List ContextId}

/-! ## Covered values -/

theorem covers_of_plain {x : Pointer} {value : Datum} (h : ∀ a, value ≠ .ref a) :
    s.Covers objectAt size x value := fun a ha => absurd ha (h a)

/-- References follow the flow. -/
theorem Covers.flow (hc : Closed p how s) {x y : Pointer} (hxy : s.Flows x y) {value : Datum}
    (h : s.Covers objectAt size x value) : s.Covers objectAt size y value := by
  intro a ha
  obtain ⟨hlt, i, hi, hio⟩ := h a ha
  obtain ⟨i', j, hi', hj, hij⟩ := hxy
  obtain rfl := Arena.pointer_inj hi hi'
  exact ⟨hlt, j, hj, hc.flow hij _ hio⟩

theorem Covers.update {c : ContextId} {l : Locals} {lhs : VarId} {value : Datum}
    (hl : ∀ v, s.Covers objectAt size (.var c v) (l v))
    (hv : s.Covers objectAt size (.var c lhs) value) (v : VarId) :
    s.Covers objectAt size (.var c v) (Function.update l lhs value v) := by
  by_cases h : v = lhs
  · subst h
    rwa [Function.update_self]
  · rw [Function.update_of_ne h]
    exact hl v

/-- A new object at the first free address does not disturb what is covered. -/
theorem Covers.grow {x : Pointer} {value : Datum} (h : s.Covers objectAt size x value) (o : ObjId) :
    s.Covers (Function.update objectAt size o) (size + 1) x value := by
  intro a ha
  obtain ⟨hlt, hx⟩ := h a ha
  rw [Function.update_of_ne (Nat.ne_of_lt hlt)]
  exact ⟨Nat.lt_succ_of_lt hlt, hx⟩

theorem Stacked.grow {fs : List Activation} {cs : List ContextId}
    (h : s.Stacked objectAt size fs cs) (o : ObjId) :
    s.Stacked (Function.update objectAt size o) (size + 1) fs cs := by
  induction h with
  | nil => exact .nil
  | cons hr hl hcall _ ih => exact .cons hr (fun v => (hl v).grow o) hcall ih

theorem slotPointer_update {slot : Slot} (h : InUse size slot) (o : ObjId) :
    slotPointer (Function.update objectAt size o) slot = slotPointer objectAt slot := by
  cases slot with
  | field a f => simp only [slotPointer, Function.update_of_ne (Nat.ne_of_lt h)]
  | static f => rfl
  | element a i => simp only [slotPointer, Function.update_of_ne (Nat.ne_of_lt h)]

/-! ## Statements -/

section Statements

variable {f : Activation} {fs : List Activation} {store : Store} {c : ContextId}
  {cs : List ContextId}

theorem Represents.jump (h : s.Represents ⟨f :: fs, store⟩ objectAt (c :: cs)) (n : Nat) :
    s.Represents ⟨⟨f.method, n, f.locals⟩ :: fs, store⟩ objectAt (c :: cs) := by
  refine ⟨?_, h.objects, h.slots, h.inUse⟩
  cases h.stack with
  | cons hr hl hcall hrest => exact .cons hr hl hcall hrest

theorem Represents.assign (h : s.Represents ⟨f :: fs, store⟩ objectAt (c :: cs)) {lhs : VarId}
    {value : Datum} (hv : s.Covers objectAt store.objects.length (.var c lhs) value) (n : Nat) :
    s.Represents ⟨⟨f.method, n, Function.update f.locals lhs value⟩ :: fs, store⟩ objectAt
      (c :: cs) := by
  refine ⟨?_, h.objects, h.slots, h.inUse⟩
  cases h.stack with
  | cons hr hl hcall hrest => exact .cons hr (Covers.update hl hv) hcall hrest

theorem Represents.write (h : s.Represents ⟨f :: fs, store⟩ objectAt (c :: cs)) (slot : Slot)
    {value : Datum}
    (hv : s.Covers objectAt store.objects.length (slotPointer objectAt slot) value)
    (hslot : InUse store.objects.length slot) (n : Nat) :
    s.Represents ⟨⟨f.method, n, f.locals⟩ :: fs,
      { store with slots := Function.update store.slots slot value }⟩ objectAt (c :: cs) := by
  have hj := h.jump n
  refine ⟨hj.stack, hj.objects, fun slot' => ?_, fun {slot' a} ha => ?_⟩
  · by_cases heq : slot' = slot
    · subst heq
      show s.Covers _ _ _ (Function.update store.slots slot' value slot')
      rwa [Function.update_self]
    · show s.Covers _ _ _ (Function.update store.slots slot value slot')
      rw [Function.update_of_ne heq]
      exact h.slots slot'
  · by_cases heq : slot' = slot
    · subst heq
      exact hslot
    · change Function.update store.slots slot value slot' = _ at ha
      rw [Function.update_of_ne heq] at ha
      exact h.inUse ha

/-- The object that a statement allocates in the context of the frame stands for the new object. -/
theorem Represents.allocate (hc : Closed p how s)
    (h : s.Represents ⟨f :: fs, store⟩ objectAt (c :: cs)) {lhs : VarId} {ty : Ty}
    (hst : p.stmt f.site = .ok (.alloc lhs ty)) (n : Nat) :
    ∃ o, s.Represents ⟨⟨f.method, n,
        Function.update f.locals lhs (.ref store.objects.length)⟩ :: fs,
      { store with objects := store.objects ++ [⟨f.site, ty⟩] }⟩
        (Function.update objectAt store.objects.length o) (c :: cs) := by
  cases h.stack with
  | cons hr hl hcall hrest =>
    obtain ⟨o, ⟨context, method, heap, -, -, -, ho⟩, hheld⟩ := hc.executed hr hst
    refine ⟨o, ?_, ?_, fun slot => ?_, fun {slot a} ha => ?_⟩
    · rw [List.length_append, List.length_singleton]
      refine .cons hr (Covers.update (fun v => (hl v).grow o) ?_) hcall (hrest.grow o)
      intro a ha
      cases ha
      rw [Function.update_self]
      exact ⟨Nat.lt_succ_self _, hheld⟩
    · intro a object ha
      rw [List.getElem?_append] at ha
      split at ha
      · next hlt =>
        rw [Function.update_of_ne (Nat.ne_of_lt hlt)]
        exact h.objects ha
      · next hge =>
        rw [List.getElem?_singleton] at ha
        split at ha
        · obtain rfl : a = store.objects.length := by omega
          cases ha
          rw [Function.update_self]
          exact ⟨_, ho, rfl, rfl⟩
        · cases ha
    · rw [List.length_append, List.length_singleton]
      intro a ha
      have huse := h.inUse ha
      rw [slotPointer_update huse]
      exact (h.slots slot).grow o a ha
    · have huse := h.inUse ha
      rw [List.length_append, List.length_singleton]
      cases slot with
      | field b g => exact Nat.lt_succ_of_lt huse
      | static g => trivial
      | element b i => exact Nat.lt_succ_of_lt huse

/-- What a variable refers to has gone through the statements at which the variable is the base. -/
theorem Represents.passed (hc : Closed p how s)
    (h : s.Represents ⟨f :: fs, store⟩ objectAt (c :: cs)) {st : Stmt} {x : VarId} {a : Nat}
    (hst : p.stmt f.site = .ok st) (hx : st.through = some x) (ha : f.locals x = .ref a) :
    a < store.objects.length ∧ s.Passed p how s.Holds (objectAt a) c f.site st := by
  cases h.stack with
  | cons hr hl _ _ =>
    obtain ⟨hlt, hheld⟩ := hl x a ha
    exact ⟨hlt, hc.passed hr hst hx hheld⟩

theorem Represents.covered (h : s.Represents ⟨f :: fs, store⟩ objectAt (c :: cs)) (v : VarId) :
    s.Covers objectAt store.objects.length (.var c v) (f.locals v) := by
  cases h.stack with
  | cons _ hl _ _ => exact hl v

theorem Represents.executed (hc : Closed p how s)
    (h : s.Represents ⟨f :: fs, store⟩ objectAt (c :: cs)) {st : Stmt}
    (hst : p.stmt f.site = .ok st) : s.Executed p how s.Holds c f.site st := by
  cases h.stack with
  | cons hr _ _ _ => exact hc.executed hr hst

/-- A statement does not change which objects stand for the addresses in use. -/
theorem Represents.performs (hc : Closed p how s)
    (h : s.Represents ⟨f :: fs, store⟩ objectAt (c :: cs)) {st : Stmt} {l : Locals} {store' : Store}
    (hst : p.stmt f.site = .ok st) (hp : Performs f.site st f.locals store l store') (n : Nat) :
    ∃ objectAt', (∀ a < store.objects.length, objectAt' a = objectAt a) ∧
      s.Represents ⟨⟨f.method, n, l⟩ :: fs, store'⟩ objectAt' (c :: cs) := by
  cases hp with
  | alloc lhs ty =>
    obtain ⟨o, h'⟩ := h.allocate hc hst n
    exact ⟨_, fun a ha => Function.update_of_ne (Nat.ne_of_lt ha) _ _, h'⟩
  | copy lhs rhs =>
    exact ⟨_, fun _ _ => rfl, h.assign ((h.covered rhs).flow hc (h.executed hc hst)) n⟩
  | @cast lhs rhs ty _ _ x hx =>
    have hrhs := h.covered rhs
    cases hx with
    | same => exact ⟨_, fun _ _ => rfl, h.assign (hrhs.flow hc (h.executed hc hst)) n⟩
    | plain _ hx => exact ⟨_, fun _ _ => rfl, h.assign (covers_of_plain hx) n⟩
  | literal lhs value =>
    exact ⟨_, fun _ _ => rfl, h.assign (covers_of_plain fun a ha => by cases ha) n⟩
  | binary lhs op left right k =>
    exact ⟨_, fun _ _ => rfl, h.assign (covers_of_plain fun a ha => by cases ha) n⟩
  | loadStatic lhs g =>
    exact ⟨_, fun _ _ => rfl, h.assign ((h.slots (.static g)).flow hc (h.executed hc hst)) n⟩
  | storeStatic g rhs =>
    exact ⟨_, fun _ _ => rfl,
      h.write (.static g) ((h.covered rhs).flow hc (h.executed hc hst)) trivial n⟩
  | @loadField lhs x g _ _ a ha =>
    obtain ⟨hlt, hflow⟩ := h.passed hc hst rfl ha
    exact ⟨_, fun _ _ => rfl, h.assign ((h.slots (.field a g)).flow hc hflow) n⟩
  | @storeField x g rhs _ _ a ha =>
    obtain ⟨hlt, hflow⟩ := h.passed hc hst rfl ha
    exact ⟨_, fun _ _ => rfl, h.write (.field a g) ((h.covered rhs).flow hc hflow) hlt n⟩
  | @loadArray lhs x index _ _ a k ha _ =>
    obtain ⟨hlt, hflow⟩ := h.passed hc hst rfl ha
    exact ⟨_, fun _ _ => rfl, h.assign ((h.slots (.element a k)).flow hc hflow) n⟩
  | @storeArray x index rhs _ _ a k ha _ =>
    obtain ⟨hlt, hflow⟩ := h.passed hc hst rfl ha
    exact ⟨_, fun _ _ => rfl, h.write (.element a k) ((h.covered rhs).flow hc hflow) hlt n⟩
  | branch => exact ⟨_, fun _ _ => rfl, h.jump n⟩
  | switch => exact ⟨_, fun _ _ => rfl, h.jump n⟩
  | goto => exact ⟨_, fun _ _ => rfl, h.jump n⟩
  | nop => exact ⟨_, fun _ _ => rfl, h.jump n⟩

/-! ## Calls and returns -/

/-- A parameter has the value of an argument, and no other variable is affected. -/
theorem bindParams_cases (pairs : List (VarId × VarId)) (caller callee : Locals) (v : VarId) :
    bindParams pairs caller callee v = callee v ∨
      ∃ arg, (arg, v) ∈ pairs ∧ bindParams pairs caller callee v = caller arg := by
  induction pairs generalizing callee with
  | nil => exact Or.inl rfl
  | cons pair pairs ih =>
    obtain ⟨arg, param⟩ := pair
    rcases ih (Function.update callee param (caller arg)) with h | ⟨arg', hmem, h⟩
    · by_cases hv : v = param
      · subst hv
        rw [Function.update_self] at h
        exact Or.inr ⟨arg, List.mem_cons_self, h⟩
      · rw [Function.update_of_ne hv] at h
        exact Or.inl h
    · exact Or.inr ⟨arg', List.mem_cons_of_mem _ hmem, h⟩

/-- Along a call, the locals with which a method starts are covered. -/
theorem covers_enter (hc : Closed p how s) {call : Invoke} {method : Method} {caller : Locals}
    {receiver : Datum} {kind : CallKind} {site : StmtId} {c' : ContextId} {k : MethodId}
    (hedge : ⟨kind, (c, site), (c', k)⟩ ∈ s.calls.edges.toList)
    (hst : p.stmt site = .ok (.invoke call)) (hm : p.method k = .ok method)
    (hl : ∀ v, s.Covers objectAt size (.var c v) (caller v))
    (hthis : ∀ this, method.decl.this = some this →
      s.Covers objectAt size (.var c' this) receiver) (v : VarId) :
    s.Covers objectAt size (.var c' v) (enter call method.decl caller receiver v) := by
  unfold enter
  rcases bindParams_cases (call.args.zip method.decl.params) caller _ v with h | ⟨arg, hmem, h⟩
  · rw [h]
    cases hd : method.decl.this with
    | none => exact covers_of_plain fun a ha => by cases ha
    | some this =>
      refine Covers.update (fun v => covers_of_plain fun a ha => by cases ha) ?_ v
      exact hthis this hd
  · rw [h]
    exact (hl arg).flow hc ((hc.bound hedge).argument hst hm hmem)

theorem Represents.call (hc : Closed p how s)
    (h : s.Represents ⟨f :: fs, store⟩ objectAt (c :: cs)) {call : Invoke} {method : Method}
    {receiver : Datum} {kind : CallKind} {c' : ContextId} {k : MethodId}
    (hedge : ⟨kind, (c, f.site), (c', k)⟩ ∈ s.calls.edges.toList)
    (hst : p.stmt f.site = .ok (.invoke call)) (hm : p.method k = .ok method)
    (hthis : ∀ this, method.decl.this = some this →
      s.Covers objectAt store.objects.length (.var c' this) receiver) :
    s.Represents ⟨⟨k, 0, enter call method.decl f.locals receiver⟩ :: f :: fs, store⟩ objectAt
      (c' :: c :: cs) :=
  ⟨.cons (hc.entered hedge) (covers_enter hc hedge hst hm h.covered hthis) ⟨kind, hedge⟩ h.stack,
    h.objects, h.slots, h.inUse⟩

theorem Represents.callStatically (hc : Closed p how s)
    (h : s.Represents ⟨f :: fs, store⟩ objectAt (c :: cs)) {call : Invoke} {method : Method}
    {k : MethodId} (hst : p.stmt f.site = .ok (.invoke call)) (hk : call.kind = .static)
    (hd : p.hierarchy.declared call.target.owner call.target.subsignature = .ok (some k))
    (hm : p.method k = .ok method) :
    ∃ c', s.Represents ⟨⟨k, 0, enter call method.decl f.locals .null⟩ :: f :: fs, store⟩ objectAt
      (c' :: c :: cs) := by
  obtain ⟨k', context, c', hk', -, -, hedge⟩ := h.executed hc hst (by simp [Invoke.isStatic, hk])
  simp only [Hierarchy.callee, hk, hd] at hk'
  cases hk'
  exact ⟨c', h.call hc hedge hst hm fun _ _ => covers_of_plain fun a ha => by cases ha⟩

/-- The analysis resolves a call on an object of a given type as the machine does. -/
theorem callee_of_selects {call : Invoke} {ty : Ty} {k : MethodId} (h : Selects p call ty k) :
    p.hierarchy.callee ty.class? call = .ok (some k) := by
  cases h with
  | special hk hd => simp only [Hierarchy.callee, hk, hd]
  | virtual hk hd => rcases hk with hk | hk <;> simp only [Hierarchy.callee, hk, Ty.class?, hd]

theorem Represents.callOn (hc : Closed p how s)
    (h : s.Represents ⟨f :: fs, store⟩ objectAt (c :: cs)) {call : Invoke} {x : VarId} {a : Nat}
    {object : Instance} {method : Method} {k : MethodId}
    (hst : p.stmt f.site = .ok (.invoke call)) (hx : call.receiver = some x)
    (ha : f.locals x = .ref a) (hobject : store.objects[a]? = some object)
    (hsel : Selects p call object.ty k) (hm : p.method k = .ok method) :
    ∃ c', s.Represents ⟨⟨k, 0, enter call method.decl f.locals (.ref a)⟩ :: f :: fs, store⟩ objectAt
      (c' :: c :: cs) := by
  obtain ⟨hlt, o, ho, hleads⟩ := h.passed hc hst hx ha
  obtain ⟨o', ho', -, hty⟩ := h.objects hobject
  rw [ho] at ho'
  cases ho'
  have hclass : o.class? = object.ty.class? := congrArg Ty.class? hty
  obtain ⟨method', context, heap, c', hm', -, -, -, hedge, hthis⟩ :=
    hleads k (by rw [hclass, callee_of_selects hsel])
  rw [hm] at hm'
  cases hm'
  refine ⟨c', h.call hc hedge hst hm fun this ht b hb => ?_⟩
  cases hb
  exact ⟨hlt, hthis this ht⟩

/-- What a frame returns is held by a variable that its method returns. -/
theorem mem_returnVars_of_returns (hp : p.Accepted) {method : Method} {value : Datum}
    (hm : p.method f.method = .ok method) (hret : Returns p f (some value)) :
    ∃ v ∈ method.returnVars, f.locals v = value := by
  generalize hv : some value = returned at hret
  cases hret with
  | @ret v? hret =>
    obtain ⟨v, rfl, hvalue⟩ := Option.map_eq_some_iff.1 hv.symm
    exact ⟨v, (Program.mem_returnVars hp hm).2 ⟨f.site, rfl, hret⟩, hvalue⟩
  | runOff => cases hv

/-- A returned value is covered at the variable that takes it. -/
theorem covers_returned (hp : p.Accepted) (hc : Closed p how s) {c' : ContextId} {g : Activation}
    {kind : CallKind} {call : Invoke} {lhs : VarId} {value : Datum}
    (hedge : ⟨kind, (c, g.site), (c', f.method)⟩ ∈ s.calls.edges.toList)
    (hst : p.stmt g.site = .ok (.invoke call)) (hlhs : call.result = some lhs)
    (hl : ∀ v, s.Covers objectAt size (.var c' v) (f.locals v)) (hret : Returns p f (some value)) :
    s.Covers objectAt size (.var c lhs) value := by
  have hbound := hc.bound hedge
  have ⟨_, method, _, hm, _⟩ := hbound
  obtain ⟨v, hmem, rfl⟩ := mem_returnVars_of_returns hp hm hret
  exact (hl v).flow hc (hbound.result hst hm hlhs hmem)

theorem Represents.leave (hp : p.Accepted) (hc : Closed p how s) {g : Activation} {c' : ContextId}
    (h : s.Represents ⟨f :: g :: fs, store⟩ objectAt (c' :: c :: cs)) {value : Option Datum}
    {call : Invoke} (hret : Returns p f value) (hst : p.stmt g.site = .ok (.invoke call))
    (n : Nat) :
    s.Represents ⟨⟨g.method, n, receive g.locals call.result value⟩ :: fs, store⟩ objectAt
      (c :: cs) := by
  cases h.stack with
  | cons _ hl hcall hrest =>
    obtain ⟨kind, hedge⟩ := hcall
    have hg : s.Represents ⟨g :: fs, store⟩ objectAt (c :: cs) :=
      ⟨hrest, h.objects, h.slots, h.inUse⟩
    cases hlhs : call.result with
    | none => exact hg.jump n
    | some lhs =>
      cases value with
      | none => exact hg.jump n
      | some value => exact hg.assign (covers_returned hp hc hedge hst hlhs hl hret) n

end Statements

/-! ## Steps and executions -/

theorem Stacked.exists_cons {f : Activation} {fs : List Activation}
    (h : s.Stacked objectAt size (f :: fs) contexts) : ∃ c cs, contexts = c :: cs := by
  cases h with
  | cons => exact ⟨_, _, rfl⟩

/-- A step of the machine leads to a machine that is represented as well. -/
theorem Represents.step (hp : p.Accepted) (hc : Closed p how s)
    (h : s.Represents m objectAt contexts) (hstep : Step p m m') :
    ∃ objectAt' contexts', s.Represents m' objectAt' contexts' := by
  cases hstep with
  | simple hst hperf _ =>
    obtain ⟨c, cs, rfl⟩ := h.stack.exists_cons
    obtain ⟨objectAt', -, h'⟩ := h.performs hc hst hperf _
    exact ⟨objectAt', _, h'⟩
  | staticCall hst hk hd hm =>
    obtain ⟨c, cs, rfl⟩ := h.stack.exists_cons
    obtain ⟨c', h'⟩ := h.callStatically hc hst hk hd hm
    exact ⟨_, _, h'⟩
  | instanceCall hst hx ha hobject hsel hm =>
    obtain ⟨c, cs, rfl⟩ := h.stack.exists_cons
    obtain ⟨c', h'⟩ := h.callOn hc hst hx ha hobject hsel hm
    exact ⟨_, _, h'⟩
  | leave hret hst =>
    cases hs : h.stack with
    | cons _ _ _ hrest =>
      obtain ⟨c, cs, rfl⟩ := hrest.exists_cons
      exact ⟨_, _, h.leave hp hc hret hst _⟩
  | stop hret => exact ⟨objectAt, [], .nil, h.objects, h.slots, h.inUse⟩

theorem represents_of_starts (hc : Closed p how s) (h : Starts p m) :
    ∃ objectAt contexts, s.Represents m objectAt contexts := by
  cases h with
  | mk hl hslots =>
    obtain ⟨c, -, hr⟩ := hc.entry
    refine ⟨fun _ => ⟨0⟩, [c], .cons hr (fun v => covers_of_plain (hl v)) trivial .nil,
      fun ha => ?_, fun slot => covers_of_plain (hslots slot), fun {slot a} ha => ?_⟩
    · simp at ha
    · exact absurd ha (hslots slot a)

theorem represents_of_executes (hp : p.Accepted) (hc : Closed p how s) (h : Executes p m) :
    ∃ objectAt contexts, s.Represents m objectAt contexts := by
  obtain ⟨first, hstart, hrun⟩ := h
  induction hrun with
  | refl => exact represents_of_starts hc hstart
  | tail _ hstep ih =>
    obtain ⟨objectAt, contexts, ih⟩ := ih
    exact ih.step hp hc hstep

/-- The call of `id` in `boxes`. -/
def callId : Invoke := ⟨.virtual, some ⟨2⟩, some ⟨0⟩, ⟨⟨1⟩, "Box id(Box)"⟩, [⟨1⟩]⟩

/-- The local variables of `main` in `boxes` when both boxes have been allocated. -/
def twoBoxes : Locals :=
  Function.update (Function.update (fun _ => .null) ⟨0⟩ (.ref 0)) ⟨1⟩ (.ref 1)

/-- The machine that runs `boxes` when `id` has been called. -/
def insideId : Machine where
  frames := [⟨⟨1⟩, 0, enter callId boxes.methods[1] twoBoxes (.ref 0)⟩, ⟨⟨0⟩, 2, twoBoxes⟩]
  store := ⟨[⟨⟨⟨0⟩, 0⟩, .ref ⟨1⟩⟩, ⟨⟨⟨0⟩, 1⟩, .ref ⟨1⟩⟩], fun _ => .null⟩

theorem insideId_executes : Executes (.index boxes) insideId := by
  have hbox : (Program.index boxes).stmt ⟨⟨0⟩, 0⟩ = .ok (.alloc ⟨0⟩ (.ref ⟨1⟩)) := rfl
  have hitem : (Program.index boxes).stmt ⟨⟨0⟩, 1⟩ = .ok (.alloc ⟨1⟩ (.ref ⟨1⟩)) := rfl
  have hcall : (Program.index boxes).stmt ⟨⟨0⟩, 2⟩ = .ok (.invoke callId) := rfl
  have hid : (Program.index boxes).method ⟨1⟩ =
      .ok (boxes.indexedMethod ⟨1⟩ boxes.methods[1]) := rfl
  have h₁ : Step (.index boxes) ⟨[⟨⟨0⟩, 0, fun _ => .null⟩], ⟨[], fun _ => .null⟩⟩
      ⟨[⟨⟨0⟩, 1, Function.update (fun _ => .null) ⟨0⟩ (.ref 0)⟩],
        ⟨[⟨⟨⟨0⟩, 0⟩, .ref ⟨1⟩⟩], fun _ => .null⟩⟩ :=
    .simple hbox (.alloc _ _ _ _) (List.mem_singleton.2 rfl)
  have h₂ : Step (.index boxes) ⟨[⟨⟨0⟩, 1, Function.update (fun _ => .null) ⟨0⟩ (.ref 0)⟩],
        ⟨[⟨⟨⟨0⟩, 0⟩, .ref ⟨1⟩⟩], fun _ => .null⟩⟩ ⟨[⟨⟨0⟩, 2, twoBoxes⟩], insideId.store⟩ :=
    .simple hitem (.alloc _ _ _ _) (List.mem_singleton.2 rfl)
  have h₃ : Step (.index boxes) ⟨[⟨⟨0⟩, 2, twoBoxes⟩], insideId.store⟩ insideId :=
    .instanceCall hcall rfl rfl rfl (.virtual (Or.inl rfl) rfl) hid
  exact ⟨_, .mk (fun _ _ h => by cases h) (fun _ _ h => by cases h),
    ((Relation.ReflTransGen.single h₁).tail h₂).tail h₃⟩

/-- **Soundness.** Once nothing is pending in an analysis, with any sensitivity and whatever was
chosen on the way, it represents every machine that the program can come to. -/
theorem reaches_represents (hp : p.Accepted) (hr : Reaches p how noExtra s)
    (hend : s.pending.isEmpty = true) (hm : Executes p m) :
    ∃ objectAt contexts, s.Represents m objectAt contexts :=
  represents_of_executes hp (closed_of_reaches hp hr hend) hm

theorem boxes_reaches_represents :
    ∃ s, Reaches (.index boxes) (.object 1) noExtra s ∧ s.pending.isEmpty = true ∧
      Executes (.index boxes) insideId ∧
      ∃ objectAt contexts, s.Represents insideId objectAt contexts := by
  obtain ⟨s, hs, -⟩ := exists_ok_of_any
    ((initial (.object 1) .lifo).solve (.index boxes) (.object 1) 100) (fun _ => true)
    (by decide +kernel)
  obtain ⟨hr, hend⟩ := reaches_of_solve hs
  exact ⟨s, hr, hend, insideId_executes,
    reaches_represents boxes_accepted hr hend insideId_executes⟩

end ObjectFlow.PointsTo.State
