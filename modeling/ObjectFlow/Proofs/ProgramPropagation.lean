import ObjectFlow.Proofs.Computation
import ObjectFlow.Proofs.ProgramFacts
import ObjectFlow.Proofs.Soundness

/-!
# Constant propagation in a program is sound

Wherever a machine is when it runs a program with its numbers, each frame is at a node of the
supergraph, and the fact there admits the numbers that the variables of the frame hold
(`FrameKnown`). What is known about the heap admits the numbers in fields and array elements, where
the points-to analysis says which abstract object an address stands for (`Kept`). Calls and returns
follow the edges of the supergraph because the points-to analysis finds every call. Together these
are the invariant `Known`, which every step preserves.

The invariant holds at the start because there is no object yet. An object that the entry method is
given is not one of the abstract objects, and facts say nothing about the numbers that are put into
it and taken out again (`borrowing_unseen`).
-/

namespace ObjectFlow

open Std

namespace Value

theorem mayAlias_of_admits {i j : Value} {n : Int32} (hi : i.Admits n) (hj : j.Admits n) :
    i.mayAlias j = true := by
  rcases hi with rfl | rfl <;> rcases hj with rfl | rfl <;> simp [mayAlias]

end Value

namespace Computation

open Execution Constant PointsTo

/-! ## Numbers in variables -/

/-- The numbers that local variables hold. -/
def numbers (l : Locals) : Numbers := fun v =>
  match l v with
  | .num n => some n
  | .null | .ref _ => none

theorem numbers_eq_some {l : Locals} {v : VarId} {n : Int32} :
    numbers l v = some n ↔ l v = .num n := by
  unfold numbers
  cases l v <;> simp

/-- Only numeric variables hold numbers. -/
def Typed (p : Program) (l : Locals) : Prop := ∀ v n, l v = .num n → p.holdsInt v = .ok true

variable {p : Program} {l l' : Locals} {fact out : ConstFact} {lhs : VarId} {x : Datum}

theorem Typed.update (h : Typed p l) (hx : Fits p lhs x) : Typed p (Function.update l lhs x) := by
  intro v n hv
  by_cases hvl : v = lhs
  · subst hvl
    rw [Function.update_self] at hv
    exact hx.2 ⟨n, hv⟩
  · rw [Function.update_of_ne hvl] at hv
    exact h v n hv

theorem agrees_update {value : Value} (h : Agrees fact (numbers l))
    (hx : ∀ n, x = .num n → value.Admits n) :
    Agrees (fact.update lhs value) (numbers (Function.update l lhs x)) := by
  intro v n hv
  rw [numbers_eq_some] at hv
  rw [ConstFact.get_update]
  by_cases hvl : v = lhs
  · subst hvl
    rw [Function.update_self] at hv
    rw [if_pos rfl]
    exact hx n hv
  · rw [Function.update_of_ne hvl] at hv
    rw [if_neg (Ne.symm hvl)]
    exact h v n (numbers_eq_some.2 hv)

theorem agrees_update_other (h : Agrees fact (numbers l)) (hx : ∀ n, x ≠ .num n) :
    Agrees fact (numbers (Function.update l lhs x)) := by
  intro v n hv
  rw [numbers_eq_some] at hv
  by_cases hvl : v = lhs
  · subst hvl
    rw [Function.update_self] at hv
    exact absurd hv (hx n)
  · rw [Function.update_of_ne hvl] at hv
    exact h v n (numbers_eq_some.2 hv)

/-- An assignment keeps facts and numbers in agreement. -/
theorem agrees_assign {s : Stmt} {value : Except Fault Value} (h : Agrees fact (numbers l))
    (hd : s.defined = some lhs) (hfits : Fits p lhs x) (hassign : assign p s value fact = .ok out)
    (hvalue : ∀ v n, value = .ok v → x = .num n → v.Admits n) :
    Agrees out (numbers (Function.update l lhs x)) := by
  cases assign_eq_ok.1 hassign with
  | none hnone => simp [hd] at hnone
  | other hd' hint =>
    cases hd.symm.trans hd'
    refine agrees_update_other h fun n hn => ?_
    rw [hfits.2 ⟨n, hn⟩] at hint
    cases hint
  | number hd' hint hv =>
    cases hd.symm.trans hd'
    exact agrees_update h fun n hn => hvalue _ n hv hn

/-! ## Numbers on the heap -/

/-- What is known about the heap admits a number in a place of the store. -/
def Kept (heap : HeapFact) (objectAt : Nat → ObjId) (size : Nat) : Slot → Int32 → Prop
  | .static f, n => (heap.get (.staticField f)).Admits n
  | .field a f, n => a < size ∧ (heap.get (.instanceField (objectAt a) f)).Admits n
  | .element a i, n => a < size ∧
      ∃ index : Value, index.Admits i ∧ (heap.get (.element (objectAt a) index)).Admits n

variable {heap : HeapFact} {objectAt objectAt' : Nat → ObjId} {size size' : Nat}

/-- What has been kept is kept when objects are added. -/
theorem Kept.grow {slot : Slot} {n : Int32} (h : Kept heap objectAt size slot n)
    (hsize : size ≤ size') (hsame : ∀ a < size, objectAt' a = objectAt a) :
    Kept heap objectAt' size' slot n := by
  cases slot with
  | static f => exact h
  | field a f =>
    obtain ⟨hlt, hadmits⟩ := h
    exact ⟨hlt.trans_le hsize, by rwa [hsame a hlt]⟩
  | element a i =>
    obtain ⟨hlt, index, hi, hadmits⟩ := h
    exact ⟨hlt.trans_le hsize, index, hi, by rwa [hsame a hlt]⟩

theorem kept_update {store : Store}
    (h : ∀ slot n, store.slots slot = .num n → Kept heap objectAt size slot n) (slot : Slot)
    (hx : ∀ n, x = .num n → Kept heap objectAt size slot n) (slot' : Slot) (n : Int32)
    (hn : Function.update store.slots slot x slot' = .num n) :
    Kept heap objectAt size slot' n := by
  by_cases hs : slot' = slot
  · subst hs
    rw [Function.update_self] at hn
    exact hx n hn
  · rw [Function.update_of_ne hs] at hn
    exact h slot' n hn

/-! ## Statements -/

section Statements

variable {site : StmtId} {s : Stmt} {h h' : Store} {a : Aliasing}

/-- The objects that local variables refer to are among those that the variables may point to. -/
def Points (a : Aliasing) (objectAt : Nat → ObjId) (size : Nat) (l : Locals) : Prop :=
  ∀ v addr, l v = .ref addr → addr < size ∧ objectAt addr ∈ a.pointsTo v

/-- A statement assigns a fitting value to the variable that it defines, and nothing else. -/
theorem Runs.locals (hrun : Runs p site s l h l' h') :
    s.defined = none ∧ l' = l ∨
      ∃ lhs x, s.defined = some lhs ∧ l' = Function.update l lhs x ∧ Fits p lhs x := by
  cases hrun with
  | binary _ _ _ _ _ hfits => exact Or.inr ⟨_, _, rfl, rfl, hfits⟩
  | binaryOther _ _ hfits => exact Or.inr ⟨_, _, rfl, rfl, hfits⟩
  | cast _ hfits => exact Or.inr ⟨_, _, rfl, rfl, hfits⟩
  | ret => exact Or.inl ⟨rfl, rfl⟩
  | move hperf _ hfits =>
    cases hperf with
    | alloc | copy | cast | literal | binary | loadStatic | loadField | loadArray =>
      refine Or.inr ⟨_, _, rfl, rfl, ?_⟩
      have hfits := hfits _ rfl
      rwa [Function.update_self] at hfits
    | storeStatic | storeField | storeArray | branch | switch | goto | nop =>
      exact Or.inl ⟨rfl, rfl⟩

theorem Runs.typed (hrun : Runs p site s l h l' h') (hl : Typed p l) : Typed p l' := by
  rcases hrun.locals with ⟨-, rfl⟩ | ⟨lhs, x, -, rfl, hfits⟩
  · exact hl
  · exact hl.update hfits

/-- The value that is computed for a statement admits the number that it assigns. -/
theorem Runs.admits (hrun : Runs p site s l h l' h') (hfact : Agrees fact (numbers l))
    (hl : Typed p l) (hpoints : Points a objectAt size l)
    (hslots : ∀ slot n, h.slots slot = .num n → Kept heap objectAt size slot n) {n : Int32}
    (hd : s.defined = some lhs) (hn : l' lhs = .num n) {value : Value}
    (hv : (match a.load? heap fact s with
      | some value => Except.ok value
      | none => evaluate p s fact) = .ok value) : value.Admits n := by
  cases hrun with
  | binary hleft hright ha hb hx =>
    cases hd
    rw [Function.update_self] at hn
    cases hn
    exact evaluate_admits hv hfact
      (.binary hleft hright (numbers_eq_some.2 ha) (numbers_eq_some.2 hb) hx)
  | binaryOther hother => exact evaluate_admits hv hfact (.binaryOther n hother)
  | cast => exact evaluate_admits hv hfact (.cast _ _ _ n)
  | ret => cases hd
  | move hperf hnot hfits =>
    cases hperf with
    | alloc => exact evaluate_admits hv hfact (.alloc _ _ n)
    | copy =>
      cases hd
      rw [Function.update_self] at hn
      exact evaluate_admits hv hfact (.copy (hl _ n hn) (numbers_eq_some.2 hn))
    | cast => exact evaluate_admits hv hfact (.cast _ _ _ n)
    | literal =>
      cases hd
      rw [Function.update_self] at hn
      cases hn
      exact evaluate_admits hv hfact (.literal _ _)
    | binary => exact absurd rfl (hnot _ _ _ _)
    | loadStatic lhs f =>
      cases hd
      rw [Function.update_self] at hn
      cases hv
      exact hslots _ n hn
    | @loadField lhs base f _ _ addr haddr =>
      cases hd
      rw [Function.update_self] at hn
      obtain ⟨-, hadmits⟩ := hslots _ n hn
      obtain ⟨-, ho⟩ := hpoints base addr haddr
      have hload : a.load? heap fact (.loadField lhs ⟨some base, f⟩) = some value := by
        cases hv
        rfl
      exact hadmits.mono ((load?_le_iff hload).1 le_rfl _ (.field ho))
    | @loadArray lhs base index _ _ addr i haddr hi =>
      cases hd
      rw [Function.update_self] at hn
      obtain ⟨-, j, hj, hadmits⟩ := hslots _ n hn
      obtain ⟨-, ho⟩ := hpoints base addr haddr
      have halias := Value.mayAlias_of_admits hj (hfact index i (numbers_eq_some.2 hi))
      have hload : a.load? heap fact (.loadArray lhs base index) = some value := by
        cases hv
        rfl
      exact hadmits.mono ((load?_le_iff hload).1 le_rfl _ (.element ho halias))
    | storeStatic | storeField | storeArray | branch | switch | goto | nop => cases hd

theorem Runs.call?_eq_none (hrun : Runs p site s l h l' h') : s.call? = none := by
  cases hrun with
  | move hperf => cases hperf <;> rfl
  | binary | binaryOther | cast | ret => rfl

/-- Behind a statement, the fact admits the numbers. -/
theorem Runs.agrees (hrun : Runs p site s l h l' h') (hst : p.stmt site = .ok s)
    (hfact : Agrees fact (numbers l)) (hl : Typed p l) (hpoints : Points a objectAt size l)
    (hslots : ∀ slot n, h.slots slot = .num n → Kept heap objectAt size slot n)
    (htransfer : transferWithHeap p a heap (.stmt site) fact = .ok out) :
    Agrees out (numbers l') := by
  obtain ⟨s', hst', hassign⟩ := bind_eq_ok.1 htransfer
  cases hst.symm.trans hst'
  rw [hrun.call?_eq_none] at hassign
  rcases hrun.locals with ⟨hd, rfl⟩ | ⟨lhs, x, hd, rfl, hfits⟩
  · cases assign_eq_ok.1 hassign with
    | none => exact hfact
    | other hd' => simp [hd] at hd'
    | number hd' => simp [hd] at hd'
  · exact agrees_assign hfact hd hfits hassign fun v n hv hx =>
      hrun.admits hfact hl hpoints hslots hd (by rw [Function.update_self, hx]) hv

/-- What is known about the heap admits the numbers that a statement stores. -/
theorem Runs.kept {r : Result} (hp : p.Accepted) (hr : r.Coherent p) (ha : a.Exact p r)
    (hrun : Runs p site s l h l' h') (hst : p.stmt site = .ok s) (hfact : Agrees fact (numbers l))
    (hl : Typed p l) (hpoints : Points a objectAt size l)
    (hslots : ∀ slot n, h.slots slot = .num n → Kept heap objectAt size slot n)
    (hrefine : refine p a heap (.stmt site) fact = .ok (heap, [])) (slot : Slot) (n : Int32)
    (hn : h'.slots slot = .num n) : Kept heap objectAt size slot n := by
  have htakes : ∀ {rhs cells n}, a.store? fact s = some (rhs, cells) → l rhs = .num n →
      ∀ c ∈ cells, (heap.get c).Admits n := by
    intro rhs cells n hstore hrhs c hc
    have hstores : Stores p a fact (.stmt site) cells (fact.get rhs) :=
      .mk hst hstore (hl rhs n hrhs)
    exact (hfact rhs n (numbers_eq_some.2 hrhs)).mono
      ((hstores.stored hp hr ha hrefine).takes c hc)
  cases hrun with
  | binary | binaryOther | cast | ret => exact hslots slot n hn
  | move hperf =>
    cases hperf with
    | alloc | copy | cast | literal | binary | loadStatic | loadField | loadArray | branch | switch
    | goto | nop => exact hslots slot n hn
    | storeStatic f rhs =>
      exact kept_update hslots (.static f)
        (fun k hk => htakes rfl hk _ (List.mem_singleton.2 rfl)) slot n hn
    | @storeField base f rhs _ _ addr haddr =>
      obtain ⟨hlt, ho⟩ := hpoints base addr haddr
      refine kept_update hslots (.field addr f) (fun k hk => ⟨hlt, htakes rfl hk _ ?_⟩) slot n hn
      exact List.mem_map.2 ⟨_, ExtTreeSet.mem_toList.2 ho, rfl⟩
    | @storeArray base index rhs _ _ addr i haddr hi =>
      obtain ⟨hlt, ho⟩ := hpoints base addr haddr
      have hindex := hfact index i (numbers_eq_some.2 hi)
      refine kept_update hslots (.element addr i)
        (fun k hk => ⟨hlt, fact.get index, hindex, htakes rfl hk _ ?_⟩) slot n hn
      rw [if_neg hindex.ne_unset]
      exact List.mem_map.2 ⟨_, ExtTreeSet.mem_toList.2 ho, rfl⟩

end Statements

/-! ## Calls and returns -/

section Calls

variable {call : Invoke} {callee : MethodId} {method : Method} {caller k : Locals}

/-- Parameters are bound to arguments one after the other, in the machine and in the facts. -/
theorem agrees_bindParams (hfact : Agrees fact (numbers caller)) {pairs : List (VarId × VarId)}
    (hfits : ∀ arg param, (arg, param) ∈ pairs → Fits p param (caller arg)) {start f : ConstFact}
    (hf : pairs.foldlM (fun start (arg, param) => do
      return if ← p.holdsInt param then ConstFact.update start param (fact.get arg) else start)
        start = Except.ok f) (hstart : Agrees start (numbers k)) (hk : Typed p k) :
    Agrees f (numbers (bindParams pairs caller k)) ∧ Typed p (bindParams pairs caller k) := by
  induction pairs generalizing start k with
  | nil =>
    cases hf
    exact ⟨hstart, hk⟩
  | cons pair pairs ih =>
    obtain ⟨arg, param⟩ := pair
    rw [List.foldlM_cons] at hf
    obtain ⟨start', hstart', hf⟩ := bind_eq_ok.1 hf
    obtain ⟨b, hb, hstart'⟩ := bind_eq_ok.1 hstart'
    have hfit := hfits arg param List.mem_cons_self
    refine ih (fun arg' param' h => hfits arg' param' (List.mem_cons_of_mem _ h)) hf ?_
      (hk.update hfit)
    cases b with
    | true =>
      cases hstart'
      exact agrees_update hstart fun n hn => hfact arg n (numbers_eq_some.2 hn)
    | false =>
      cases hstart'
      refine agrees_update_other hstart fun n hn => ?_
      rw [hfit.2 ⟨n, hn⟩] at hb
      cases hb

/-- What flows along a call admits the numbers with which the callee starts. -/
theorem agrees_enter {receiver : Datum} {f : ConstFact} (hm : p.method callee = .ok method)
    (hf : enterCallee p call callee fact = .ok f) (hfact : Agrees fact (numbers caller))
    (hpasses : Passes p call method.decl caller) (hreceiver : ∀ n, receiver ≠ .num n) :
    Agrees f (numbers (enter call method.decl caller receiver)) ∧
      Typed p (enter call method.decl caller receiver) := by
  obtain ⟨method', hm', hf⟩ := bind_eq_ok.1 hf
  cases hm.symm.trans hm'
  have hbind : ∀ k : Locals, (∀ v n, k v ≠ .num n) →
      Agrees f (numbers (bindParams (call.args.zip method.decl.params) caller k)) ∧
        Typed p (bindParams (call.args.zip method.decl.params) caller k) := fun k hk =>
    agrees_bindParams hfact hpasses hf (fun v n hv => absurd (numbers_eq_some.1 hv) (hk v n))
      fun v n hv => absurd hv (hk v n)
  unfold Execution.enter
  refine hbind _ fun v n => ?_
  cases method.decl.this with
  | none => simp
  | some this =>
    by_cases hv : v = this
    · subst hv
      simpa using hreceiver n
    · simp [Function.update_of_ne hv]

/-- Where a caller goes on, the fact admits its numbers if it is above what goes past the call and
above what the callee leaves. -/
theorem agrees_receive (hp : p.Accepted) {position : Nat} {x : Option Datum}
    {f left last : ConstFact} (hm : p.method callee = .ok method)
    (hpast : (match call.result with
      | some lhs => fact.remove lhs
      | none => fact) ≤ f)
    (hleave : leaveCallee p call callee last = .ok left) (hleft : left ≤ f)
    (hfact : Agrees fact (numbers k)) (hlast : Agrees last (numbers l))
    (hret : Returns p ⟨callee, position, l⟩ x)
    (hresult : ∀ lhs, call.result = some lhs → ∃ value, x = some value ∧ Fits p lhs value) :
    Agrees f (numbers (receive k call.result x)) := by
  cases hres : call.result with
  | none =>
    rw [hres] at hpast
    exact hfact.mono hpast
  | some lhs =>
    obtain ⟨value, rfl, hfits⟩ := hresult lhs hres
    rw [hres] at hpast
    intro v n hv
    rw [numbers_eq_some] at hv
    change Function.update k lhs value v = .num n at hv
    by_cases hvl : v = lhs
    · subst hvl
      rw [Function.update_self] at hv
      -- The callee holds the number in one of the variables that it returns.
      obtain ⟨w, hw, hwl⟩ := State.mem_returnVars_of_returns hp hm hret
      rw [leaveCallee_eq hm hres (hfits.2 ⟨n, hv⟩)] at hleave
      cases hleave
      have hle := hleft v
      rw [ConstFact.get_update, if_pos rfl, foldl_meet_le_iff] at hle
      exact (hlast w n (numbers_eq_some.2 (hwl.trans hv))).mono (hle.2 w hw)
    · rw [Function.update_of_ne hvl] at hv
      have hle := hpast v
      rw [ConstFact.get_remove, if_neg (Ne.symm hvl)] at hle
      exact (hfact v n (numbers_eq_some.2 hv)).mono hle

theorem typed_receive {x : Option Datum} (hk : Typed p k)
    (hresult : ∀ lhs, call.result = some lhs → ∃ value, x = some value ∧ Fits p lhs value) :
    Typed p (receive k call.result x) := by
  cases hres : call.result with
  | none => exact hk
  | some lhs =>
    obtain ⟨value, rfl, hfits⟩ := hresult lhs hres
    exact hk.update hfits

end Calls

/-! ## Machines -/

/-- The position of a node in the body of its method. -/
def position : Node → Nat
  | .stmt site => site.index
  | .entry _ | .exit _ => 0

/-- A frame of which all is forgotten but the statement. -/
def Frame.activation (f : Frame) : Activation :=
  ⟨f.point.node.method, position f.point.node, f.locals⟩

/-- The machine of the points-to analysis. -/
def Machine.plain (m : Machine) : Execution.Machine := ⟨m.frames.map Frame.activation, m.store⟩

/-- What is known about a frame: it is at a node of the supergraph, and the fact there admits its
numbers. What it has returned is what its method returns. -/
structure FrameKnown (p : Program) (g : Supergraph) (sol : Solution Node ConstFact) (f : Frame) :
    Prop where
  node : f.point.node ∈ g.nodes
  fact : ∃ fact, factAt sol f.point = some fact ∧ Agrees fact (numbers f.locals)
  typed : Typed p f.locals
  returned : ∃ position, Returns p ⟨f.point.node.method, position, f.locals⟩ f.returned
  /-- A call does not end behind its own node. -/
  notCall : ∀ {site call}, f.point = .behind (.stmt site) → p.stmt site ≠ .ok (.invoke call)

/-- What the fact at the point of a frame says about a variable that holds a number. -/
theorem FrameKnown.admits {g : Supergraph} {sol : Solution Node ConstFact} {f : Frame}
    (hf : FrameKnown p g sol f) (hfact : factAt sol f.point = some fact) {v : VarId} {x : Int32}
    (hx : f.locals v = .num x) : fact.get v = .nac ∨ fact.get v = .const x := by
  obtain ⟨fact', hfact', hagrees⟩ := hf.fact
  cases hfact.symm.trans hfact'
  exact hagrees v x (numbers_eq_some.2 hx)

/-- What is known about a machine. -/
structure Known (p : Program) (s : State) (g : Supergraph) (heap : HeapFact)
    (sol : Solution Node ConstFact) (m : Machine) (objectAt : Nat → ObjId)
    (contexts : List ContextId) : Prop where
  represents : s.Represents m.plain objectAt contexts
  frames : ∀ f ∈ m.frames, FrameKnown p g sol f
  slots : ∀ slot n, m.store.slots slot = .num n →
    Kept heap objectAt m.store.objects.length slot n

section Steps

variable {how : Sensitivity} {s : State} {metrics : Bool} {a : Aliasing} {g : Supergraph}
  {sol : Solution Node ConstFact} {m m' : Machine} {contexts : List ContextId} {n next : Node}
  {site : StmtId} {call : Invoke} {method : Method} {x : Option Datum} {fs : List Frame}
  {h h' : Store}

/-- A method that has not come to a return statement has returned nothing. -/
theorem exists_returns_none (hm : p.method callee = .ok method) (l : Locals) :
    ∃ position, Returns p ⟨callee, position, l⟩ none :=
  ⟨method.decl.body.size, .runOff hm le_rfl⟩

/-- A statement leads to a machine that is represented as well. -/
theorem Runs.represents {st : Stmt} {as : List Activation} {c : ContextId} {cs : List ContextId}
    (hc : State.Closed p how s)
    (hs : s.Represents ⟨⟨site.method, site.index, l⟩ :: as, h⟩ objectAt (c :: cs))
    (hst : p.stmt site = .ok st) (hrun : Runs p site st l h l' h') :
    ∃ objectAt', (∀ a < h.objects.length, objectAt' a = objectAt a) ∧
      h.objects.length ≤ h'.objects.length ∧
      s.Represents ⟨⟨site.method, site.index, l'⟩ :: as, h'⟩ objectAt' (c :: cs) := by
  cases hrun with
  | move hperf =>
    obtain ⟨objectAt', hsame, hs'⟩ := hs.performs hc hst hperf site.index
    refine ⟨objectAt', hsame, ?_, hs'⟩
    cases hperf with
    | alloc => simp
    | _ => exact le_rfl
  | binary =>
    exact ⟨_, fun _ _ => rfl, le_rfl, hs.assign (State.covers_of_plain fun _ h => by cases h) _⟩
  | binaryOther _ hx => exact ⟨_, fun _ _ => rfl, le_rfl, hs.assign (State.covers_of_plain hx) _⟩
  | cast hx => exact ⟨_, fun _ _ => rfl, le_rfl, hs.assign (State.covers_of_plain hx) _⟩
  | ret => exact ⟨_, fun _ _ => rfl, le_rfl, hs⟩

section Laws

variable (hp : p.Accepted) (hr : (Result.ofState s metrics).Coherent p)
  (ha : a.Exact p (Result.ofState s metrics))
  (hg : Supergraph.Spans p (Result.ofState s metrics).plainCalls g)
  (hsol : Dataflow.SuperSolved (superAnalysis p a) g heap sol.inFacts sol.outFacts)

include hp hg in
theorem exists_method_of_node (hn : n ∈ g.nodes) :
    ∃ method, p.method n.method = .ok method ∧ n ∈ ControlFlow.nodesOf method ∧
      n.method ∈ (Result.ofState s metrics).plainCalls.reachable.toList := by
  obtain ⟨m, hreach, method, hm, hn⟩ := hg.nodes.1 hn
  have hmethod : n.method = m :=
    (ControlFlow.method_of_mem_nodesOf hn).trans (Program.id_of_method hp hm)
  exact ⟨method, hmethod ▸ hm, hn, hmethod ▸ hreach⟩

include hp hr hg hsol in
/-- The fact before the target of an edge is above what flows along the edge. -/
theorem exists_le_of_edge {e : SuperEdge} {o : ConstFact} (he : e ∈ g.edges)
    (ho : sol.outFacts[e.source]? = some o) :
    ∃ f f', e.target ∈ g.nodes ∧ sol.inFacts[e.target]? = some f ∧ along p e o = .ok f' ∧
      f' ≤ f := by
  have htarget := (hg.coherent hp hr).target_mem he
  obtain ⟨f, -, hf, -⟩ := hsol.node htarget
  obtain ⟨f', hf', hle⟩ := hsol.edge he ho hf
  exact ⟨f, f', htarget, hf, hf', hle⟩

include hsol in
/-- Nothing is assigned at the node of a call. -/
theorem outFacts_of_call {f : ConstFact} (hn : Node.stmt site ∈ g.nodes)
    (hst : p.stmt site = .ok (.invoke call)) (hf : sol.inFacts[Node.stmt site]? = some f) :
    sol.outFacts[Node.stmt site]? = some f := by
  obtain ⟨f', o, hf', ho, -, htransfer⟩ := hsol.node hn
  cases hf.symm.trans hf'
  obtain ⟨st, hst', htransfer⟩ := bind_eq_ok.1 htransfer
  cases hst.symm.trans hst'
  cases htransfer
  exact ho

include hsol in
theorem FrameKnown.mark (hf : FrameKnown p g sol ⟨.before n, l, x⟩) (hn : ∀ site, n ≠ .stmt site) :
    FrameKnown p g sol ⟨.behind n, l, x⟩ := by
  obtain ⟨fact, hfact, hagrees⟩ := hf.fact
  obtain ⟨f, o, hf', ho, -, htransfer⟩ := hsol.node hf.node
  cases hfact.symm.trans hf'
  refine ⟨hf.node, ⟨fact, ?_, hagrees⟩, hf.typed, hf.returned, fun {site call} heq => ?_⟩
  · cases n with
    | stmt site => exact absurd rfl (hn site)
    | entry m | exit m => cases htransfer; exact ho
  · cases heq
    exact absurd rfl (hn site)

include hp hr hg hsol in
theorem FrameKnown.flow (hf : FrameKnown p g sol ⟨.behind n, l, x⟩)
    (hm : p.method n.method = .ok method) (hnext : next ∈ (ControlFlow.ofMethod method).succs n) :
    FrameKnown p g sol ⟨.before next, l, x⟩ := by
  obtain ⟨fact, hfact, hagrees⟩ := hf.fact
  obtain ⟨method', hm', -, hreach⟩ := exists_method_of_node hp hg hf.node
  have hedge : (⟨.normal, n, next⟩ : SuperEdge) ∈ g.edges :=
    hg.edges.2 ⟨_, hreach, method, hm, .normal hnext fun site call heq => by
      subst heq
      exact hf.notCall rfl⟩
  obtain ⟨f, f', htarget, hf', halong, hle⟩ := exists_le_of_edge hp hr hg hsol hedge hfact
  cases halong
  have hmethod := ControlFlow.method_of_succs hnext
  refine ⟨htarget, ⟨f, hf', hagrees.mono hle⟩, hf.typed, ?_, fun heq => by cases heq⟩
  obtain ⟨position, hret⟩ := hf.returned
  exact ⟨position, by simpa only [Point.node, hmethod] using hret⟩

include hp hg in
theorem returned_of_runs {st : Stmt} (hn : Node.stmt site ∈ g.nodes)
    (hst : p.stmt site = .ok st) (hrun : Runs p site st l h l' h') :
    ∃ position, Returns p ⟨site.method, position, l'⟩ (returnedBy l st) := by
  obtain ⟨method, hm, -, -⟩ := exists_method_of_node hp hg hn
  cases st with
  | ret value =>
    rcases hrun.locals with ⟨-, rfl⟩ | ⟨lhs, x, hd, -, -⟩
    · exact ⟨site.index, .ret hst⟩
    · cases hd
  | _ => exact exists_returns_none hm l'

include ha in
/-- What the topmost frame refers to is among what its variables may point to. -/
theorem Known.points {f : Frame} (hk : Known p s g heap sol ⟨f :: fs, h⟩ objectAt contexts) :
    Points a objectAt h.objects.length f.locals := by
  obtain ⟨c, cs, rfl⟩ := hk.represents.stack.exists_cons
  intro v addr hv
  obtain ⟨hlt, hholds⟩ := hk.represents.covered v addr hv
  exact ⟨hlt, ha.mem_pointsTo.2 (Result.mem_pointsTo.2 ⟨c, hholds⟩)⟩

include hp hr ha hg hsol in
theorem Known.execute (hc : State.Closed p how s) {st : Stmt}
    (hk : Known p s g heap sol ⟨⟨.before (.stmt site), l, x⟩ :: fs, h⟩ objectAt contexts)
    (hst : p.stmt site = .ok st) (hrun : Runs p site st l h l' h') :
    ∃ objectAt', Known p s g heap sol
      ⟨⟨.behind (.stmt site), l', returnedBy l st⟩ :: fs, h'⟩ objectAt' contexts := by
  obtain ⟨hf, hbelow⟩ := List.forall_mem_cons.1 hk.frames
  have hpoints := hk.points ha
  obtain ⟨fact, hfact, hagrees⟩ := hf.fact
  obtain ⟨f, o, hf', ho, hrefine, htransfer⟩ := hsol.node hf.node
  cases hfact.symm.trans hf'
  obtain ⟨c, cs, rfl⟩ := hk.represents.stack.exists_cons
  obtain ⟨objectAt', hsame, hsize, hs'⟩ := hrun.represents hc hk.represents hst
  refine ⟨objectAt', hs', List.forall_mem_cons.2 ⟨?_, hbelow⟩, fun slot n hn => ?_⟩
  · refine ⟨hf.node, ⟨o, ho, hrun.agrees hst hagrees hf.typed hpoints hk.slots htransfer⟩,
      hrun.typed hf.typed, returned_of_runs hp hg hf.node hst hrun, fun heq hcall => ?_⟩
    cases heq
    cases hst.symm.trans hcall
    cases hrun.call?_eq_none
  · exact (hrun.kept hp hr ha hst hagrees hf.typed hpoints hk.slots hrefine slot n hn).grow hsize
      hsame

include hp hr hg hsol in
theorem Known.enter {receiver : Datum} {callee : MethodId}
    (hk : Known p s g heap sol ⟨⟨.before (.stmt site), l, x⟩ :: fs, h⟩ objectAt contexts)
    {c : ContextId}
    (hs : s.Represents ⟨⟨callee, 0, enter call method.decl l receiver⟩ ::
      (Frame.mk (.before (.stmt site)) l x :: fs).map Frame.activation, h⟩ objectAt (c :: contexts))
    (hst : p.stmt site = .ok (.invoke call)) (hm : p.method callee = .ok method)
    (hpasses : Passes p call method.decl l) (hreceiver : ∀ n, receiver ≠ .num n) :
    Known p s g heap sol ⟨⟨.before (.entry callee), enter call method.decl l receiver, none⟩ ::
      ⟨.before (.stmt site), l, x⟩ :: fs, h⟩ objectAt (c :: contexts) := by
  have hf := hk.frames _ List.mem_cons_self
  obtain ⟨fact, hfact, hagrees⟩ := hf.fact
  obtain ⟨method', hm', hnode, hreach⟩ := exists_method_of_node hp hg hf.node
  obtain ⟨d, ds, rfl⟩ := hk.represents.stack.exists_cons
  have hcallee : callee ∈ (Result.ofState s metrics).plainCalls.callees site := by
    cases hs.stack with
    | cons _ _ hcalled _ =>
      obtain ⟨kind, he⟩ := hcalled
      exact Result.mem_callees.2 ⟨kind, d, c, he⟩
  have hedge : (⟨.call, .stmt site, .entry callee⟩ : SuperEdge) ∈ g.edges :=
    hg.edges.2 ⟨_, hreach, method', hm', .call hnode hst hcallee⟩
  obtain ⟨f, f', htarget, hf', halong, hle⟩ := exists_le_of_edge hp hr hg hsol hedge
    (outFacts_of_call hsol hf.node hst hfact)
  rw [along_call hst] at halong
  obtain ⟨hagrees', htyped⟩ := agrees_enter hm halong hagrees hpasses hreceiver
  exact ⟨hs, List.forall_mem_cons.2 ⟨⟨htarget, ⟨f, hf', hagrees'.mono hle⟩, htyped,
    exists_returns_none hm _, fun heq => by cases heq⟩, hk.frames⟩, hk.slots⟩

include hp hr hg hsol in
/-- What is known about the caller where it goes on comes along two edges: from the call, without
the variable that gets the result, and from the exit of the callee. -/
theorem FrameKnown.leave {callee : MethodId} {k : Locals} {y : Option Datum}
    (htop : FrameKnown p g sol ⟨.behind (.exit callee), l, x⟩)
    (hbelow : FrameKnown p g sol ⟨.before (.stmt site), k, y⟩)
    (hcallee : callee ∈ (Result.ofState s metrics).plainCalls.callees site)
    (hst : p.stmt site = .ok (.invoke call)) (hm : p.method site.method = .ok method)
    (hnext : next ∈ (ControlFlow.ofMethod method).succs (.stmt site))
    (hresult : ∀ lhs, call.result = some lhs → ∃ value, x = some value ∧ Fits p lhs value) :
    FrameKnown p g sol ⟨.before next, receive k call.result x, none⟩ := by
  obtain ⟨last, hlast, hagreesLast⟩ := htop.fact
  obtain ⟨fact, hfact, hagrees⟩ := hbelow.fact
  obtain ⟨position, hret⟩ := htop.returned
  obtain ⟨calleeMethod, hcalleeMethod⟩ := hr.methods (hr.callees hcallee)
  obtain ⟨-, -, -, hreach⟩ := exists_method_of_node hp hg hbelow.node
  have hpast : (⟨.callToReturn, .stmt site, next⟩ : SuperEdge) ∈ g.edges :=
    hg.edges.2 ⟨_, hreach, method, hm, .callToReturn hst hnext⟩
  have hback : (⟨.ret site, .exit callee, next⟩ : SuperEdge) ∈ g.edges :=
    hg.edges.2 ⟨_, hreach, method, hm, .ret hst hcallee hnext⟩
  obtain ⟨f, f₁, htarget, hf, halong₁, hle₁⟩ := exists_le_of_edge hp hr hg hsol hpast
    (outFacts_of_call hsol hbelow.node hst hfact)
  obtain ⟨f', f₂, -, hf', halong₂, hle₂⟩ := exists_le_of_edge hp hr hg hsol hback hlast
  cases hf.symm.trans hf'
  rw [along_callToReturn hst] at halong₁
  cases halong₁
  rw [along_ret hst] at halong₂
  have hmethod : next.method = site.method := ControlFlow.method_of_succs hnext
  exact ⟨htarget, ⟨f, hf, agrees_receive hp hcalleeMethod hle₁ halong₂ hle₂ hagrees hagreesLast
    hret hresult⟩, typed_receive hbelow.typed hresult, exists_returns_none (hmethod ▸ hm) _,
    fun heq => by cases heq⟩

include hp hr hg hsol in
theorem Known.leave (hc : State.Closed p how s) {callee : MethodId} {k : Locals} {y : Option Datum}
    (hk : Known p s g heap sol
      ⟨⟨.behind (.exit callee), l, x⟩ :: ⟨.before (.stmt site), k, y⟩ :: fs, h⟩ objectAt contexts)
    (hst : p.stmt site = .ok (.invoke call)) (hm : p.method site.method = .ok method)
    (hnext : next ∈ (ControlFlow.ofMethod method).succs (.stmt site))
    (hresult : ∀ lhs, call.result = some lhs → ∃ value, x = some value ∧ Fits p lhs value) :
    ∃ contexts', Known p s g heap sol ⟨⟨.before next, receive k call.result x, none⟩ :: fs, h⟩
      objectAt contexts' := by
  obtain ⟨htop, hframes⟩ := List.forall_mem_cons.1 hk.frames
  obtain ⟨hbelow, hframes⟩ := List.forall_mem_cons.1 hframes
  obtain ⟨position, hret⟩ := htop.returned
  obtain ⟨c', cs', rfl⟩ := hk.represents.stack.exists_cons
  have hmethod : next.method = site.method := ControlFlow.method_of_succs hnext
  cases hk.represents.stack with
  | cons _ _ hcalled hrest =>
    obtain ⟨c, cs, rfl⟩ := hrest.exists_cons
    obtain ⟨kind, he⟩ := hcalled
    have hcallee : callee ∈ (Result.ofState s metrics).plainCalls.callees site :=
      Result.mem_callees.2 ⟨kind, c, c', he⟩
    have hcaller := htop.leave hp hr hg hsol hbelow hcallee hst hm hnext hresult
    refine ⟨c :: cs, ?_, List.forall_mem_cons.2 ⟨hcaller, hframes⟩, hk.slots⟩
    show s.Represents ⟨⟨next.method, _, _⟩ :: _, _⟩ _ _
    rw [hmethod]
    exact (hk.represents.jump position).leave hp hc hret hst (Computation.position next)

include hp hr ha hg hsol in
/-- A step keeps what is known. -/
theorem Known.step (hc : State.Closed p how s) (hk : Known p s g heap sol m objectAt contexts)
    (hstep : Step p m m') :
    ∃ objectAt' contexts', Known p s g heap sol m' objectAt' contexts' := by
  cases hstep with
  | mark hn =>
    obtain ⟨htop, hbelow⟩ := List.forall_mem_cons.1 hk.frames
    exact ⟨objectAt, contexts, hk.represents,
      List.forall_mem_cons.2 ⟨htop.mark hsol hn, hbelow⟩, hk.slots⟩
  | execute hst hrun =>
    obtain ⟨objectAt', hk'⟩ := hk.execute hp hr ha hg hsol hc hst hrun
    exact ⟨objectAt', contexts, hk'⟩
  | @flow n next method l x fs h hm hnext =>
    obtain ⟨htop, hbelow⟩ := List.forall_mem_cons.1 hk.frames
    obtain ⟨c, cs, rfl⟩ := hk.represents.stack.exists_cons
    have hmethod := ControlFlow.method_of_succs hnext
    refine ⟨objectAt, c :: cs, ?_,
      List.forall_mem_cons.2 ⟨htop.flow hp hr hg hsol hm hnext, hbelow⟩, hk.slots⟩
    show s.Represents ⟨⟨next.method, position next, l⟩ :: _, _⟩ _ _
    rw [hmethod]
    exact hk.represents.jump (position next)
  | staticCall hst hkind hd hm hpasses =>
    obtain ⟨c, cs, rfl⟩ := hk.represents.stack.exists_cons
    obtain ⟨c', hs⟩ := hk.represents.callStatically hc hst hkind hd hm
    exact ⟨objectAt, _, hk.enter hp hr hg hsol hs hst hm hpasses fun n hn => by cases hn⟩
  | instanceCall hst hx hl hobject hsel hm hpasses =>
    obtain ⟨c, cs, rfl⟩ := hk.represents.stack.exists_cons
    obtain ⟨c', hs⟩ := hk.represents.callOn hc hst hx hl hobject hsel hm
    exact ⟨objectAt, _, hk.enter hp hr hg hsol hs hst hm hpasses fun n hn => by cases hn⟩
  | leave hst hm hnext hresult =>
    obtain ⟨contexts', hk'⟩ := hk.leave hp hr hg hsol hc hst hm hnext hresult
    exact ⟨objectAt, contexts', hk'⟩

include hp hr hg hsol in
/-- At the start, numeric parameters may be anything, and nothing else is known or assigned. That
there are no objects yet is needed here: what a parameter would refer to, no allocation stands for.
-/
theorem known_of_starts (hc : State.Closed p how s) (hstart : Starts p [] m) :
    ∃ objectAt contexts, Known p s g heap sol m objectAt contexts := by
  cases hstart with
  | @mk method l hm hparams haddr =>
    have href : ∀ v a, l v ≠ .ref a := fun v a h => absurd (haddr v a h) (Nat.not_lt_zero a)
    have hnum : ∀ v n, l v = .num n → v ∈ method.decl.params ∧ p.holdsInt v = .ok true := by
      intro v n hv
      obtain ⟨hparam, hfits⟩ := hparams v (by rw [hv]; simp)
      exact ⟨hparam, hfits.2 ⟨n, hv⟩⟩
    have hplain : Execution.Starts p ⟨[⟨p.entry, 0, l⟩], ⟨[], fun _ => .null⟩⟩ :=
      .mk href fun c a h => by cases h
    obtain ⟨objectAt, contexts, hs⟩ := State.represents_of_starts hc hplain
    have hentry : p.entry ∈ g.entries := by
      rw [hg.entries, hr.entries]
      exact List.mem_singleton.2 rfl
    have hnode := (hg.coherent hp hr).entry_mem hentry
    obtain ⟨f, -, hf, -⟩ := hsol.node hnode
    obtain ⟨b, hb, -, hnac⟩ := exists_boundary hp hm
    refine ⟨objectAt, contexts, hs, fun k hk => ?_, fun slot n hn => by cases hn⟩
    obtain rfl := List.mem_singleton.1 hk
    refine ⟨hnode, ⟨f, hf, fun v n hv => ?_⟩, fun v n hv => (hnum v n hv).2,
      exists_returns_none hm l, fun heq => by cases heq⟩
    obtain ⟨hparam, hint⟩ := hnum v n (numbers_eq_some.1 hv)
    have hle := hsol.boundary hentry hb hf v
    rw [hnac v hparam hint] at hle
    exact Or.inl (Value.nac_le.1 hle)

include hp hr ha hg hsol in
theorem known_of_arises (hc : State.Closed p how s) (hm : Arises p [] m) :
    ∃ objectAt contexts, Known p s g heap sol m objectAt contexts := by
  obtain ⟨first, hstart, hrun⟩ := hm
  induction hrun with
  | refl => exact known_of_starts hp hr hg hsol hc hstart
  | tail _ hstep ih =>
    obtain ⟨objectAt, contexts, ih⟩ := ih
    exact ih.step hp hr ha hg hsol hc hstep

end Laws

end Steps

/-- Constant propagation succeeds, and what it finds is known of every machine that the program can
come to without objects from before. -/
theorem exists_known (hp : p.Accepted) {r : Result} (hr : r.IsOutcome p) :
    ∃ a g heap sol, r.Coherent p ∧ Supergraph.Spans p r.plainCalls g ∧
      propagateProgram p r = .ok sol ∧
      Dataflow.SuperSolved (superAnalysis p a) g heap sol.inFacts sol.outFacts ∧
      ∀ m, Arises p [] m → ∀ f ∈ m.frames, FrameKnown p g sol f := by
  have hcoherent := hr.coherent hp
  obtain ⟨how, s, metrics, hreaches, hend, rfl⟩ := hr
  obtain ⟨a, g, heap, sol, ha, hg, hsol, hsolved⟩ := exists_propagateProgram hp hcoherent
  refine ⟨a, g, heap, sol, hcoherent, hg, hsol, hsolved, fun m hm => ?_⟩
  obtain ⟨objectAt, contexts, hk⟩ := known_of_arises hp hcoherent ha hg hsolved
    (State.closed_of_reaches hp hreaches hend) hm
  exact hk.frames

/-- **Soundness in a program.** After any points-to analysis that has come to its end, constant
propagation finds facts for the program. Take a machine that the program can come to from a start
where the numeric parameters of the entry method hold any numbers, its other parameters refer to no
object, and there is no object yet. Whenever a frame of the machine is before or behind a node, each
variable that holds a number there is not constant or that very number according to the fact at that
point. -/
theorem propagateProgram_admits (hp : p.Accepted) {r : Result} (hr : r.IsOutcome p) :
    ∃ sol, propagateProgram p r = .ok sol ∧ ∀ m, Arises p [] m → ∀ f ∈ m.frames,
      ∃ fact, factAt sol f.point = some fact ∧
        ∀ v x, f.locals v = .num x → fact.get v = .nac ∨ fact.get v = .const x := by
  obtain ⟨a, g, heap, sol, -, -, hsol, -, hknown⟩ := exists_known hp hr
  refine ⟨sol, hsol, fun m hm f hf => ?_⟩
  obtain ⟨fact, hfact, -⟩ := (hknown m hm f hf).fact
  exact ⟨fact, hfact, fun v x hv => (hknown m hm f hf).admits hfact hv⟩

/-- When `main` in `keeping` has read the box, the number that it gets is the one that `keep` has
kept there. -/
theorem keeping_propagateProgram_admits :
    (Program.index keeping).Accepted ∧ ∃ r sol m f, r.IsOutcome (.index keeping) ∧
      propagateProgram (.index keeping) r = .ok sol ∧
      Arises (.index keeping) [] m ∧ f ∈ m.frames ∧ f.point = .behind (.stmt ⟨⟨0⟩, 3⟩) ∧
      f.locals ⟨2⟩ = .num 1 ∧ ∃ fact, factAt sol f.point = some fact ∧
        (fact.get ⟨2⟩ = .nac ∨ fact.get ⟨2⟩ = .const 1) := by
  obtain ⟨r, hr, -⟩ := exists_ok_of_any
    (analyze (.index keeping) { sensitivity := .object 1, discipline := .lifo } 100)
    (fun _ => true) (by decide +kernel)
  have hr := Result.isOutcome_of_analyze hr
  obtain ⟨sol, hsol, h⟩ := propagateProgram_admits keeping_accepted hr
  obtain ⟨fact, hfact, hadmits⟩ := h _ afterLoad_arises _ List.mem_cons_self
  exact ⟨keeping_accepted, r, sol, _, _, hr, hsol, afterLoad_arises, List.mem_cons_self, rfl, rfl,
    fact, hfact, hadmits ⟨2⟩ 1 rfl⟩

/-! ## A start with objects -/

/-- A program that puts a number into a box that it is given, and takes it out again. -/
def borrowing : Model where
  classes := #[{ name := "Main" }, { name := "Box" }]
  fields := #[{ owner := ⟨1⟩, name := "value", ty := .int }]
  methods := #[
    { owner := ⟨0⟩, name := "main", subsignature := "void main(Box)", isStatic := true,
      params := [⟨0⟩], returnType := .void,
      body := #[.literal ⟨1⟩ 1, .storeField ⟨some ⟨0⟩, ⟨0⟩⟩ ⟨1⟩,
        .loadField ⟨2⟩ ⟨some ⟨0⟩, ⟨0⟩⟩] }]
  vars := #[⟨⟨0⟩, "box", .ref ⟨1⟩⟩, ⟨⟨0⟩, "one", .int⟩, ⟨⟨0⟩, "read", .int⟩]
  entry := ⟨0⟩

/-- The box that `borrowing` is given. -/
def given : Instance := ⟨⟨⟨0⟩, 0⟩, .ref ⟨1⟩⟩

/-- The local variables of `main` in `borrowing` when it has taken the number out of the box. -/
def borrowedLocals : Locals :=
  Function.update (Function.update (Function.update (fun _ => .null) ⟨0⟩ (.ref 0)) ⟨1⟩ (.num 1))
    ⟨2⟩ (.num 1)

/-- The box that `borrowing` is given, with the number in it. -/
def borrowedStore : Store where
  objects := [given]
  slots := Function.update (fun _ => .null) (.field 0 ⟨0⟩) (.num 1)

theorem borrowing_arises : Arises (.index borrowing) [given]
    ⟨[⟨.behind (.stmt ⟨⟨0⟩, 2⟩), borrowedLocals, none⟩], borrowedStore⟩ := by
  have hone : (Program.index borrowing).stmt ⟨⟨0⟩, 0⟩ = .ok (.literal ⟨1⟩ 1) := rfl
  have hstore : (Program.index borrowing).stmt ⟨⟨0⟩, 1⟩ =
      .ok (.storeField ⟨some ⟨0⟩, ⟨0⟩⟩ ⟨1⟩) := rfl
  have hload : (Program.index borrowing).stmt ⟨⟨0⟩, 2⟩ =
      .ok (.loadField ⟨2⟩ ⟨some ⟨0⟩, ⟨0⟩⟩) := rfl
  have h₀ : Arises (.index borrowing) [given] ⟨[⟨.before (.entry ⟨0⟩),
      Function.update (fun _ => .null) ⟨0⟩ (.ref 0), none⟩], ⟨[given], fun _ => .null⟩⟩ := by
    refine ⟨_, .mk rfl (fun v hv => ?_) (fun v a hv => ?_), .refl⟩
    · by_cases hbox : v = ⟨0⟩
      · subst hbox
        exact ⟨List.mem_singleton.2 rfl, fits_other rfl (by simp)⟩
      · rw [Function.update_of_ne hbox] at hv
        exact absurd rfl hv
    · by_cases hbox : v = ⟨0⟩
      · subst hbox
        cases hv
        exact Nat.one_pos
      · rw [Function.update_of_ne hbox] at hv
        cases hv
  have h₁ := (h₀.tail (.mark (by simp))).tail
    (.flow rfl (show Node.stmt ⟨⟨0⟩, 0⟩ ∈ _ by decide +kernel))
  have h₂ := (h₁.tail (.execute hone (.move (.literal ⟨1⟩ 1 _ _) (by simp)
    fun _ h => by cases h; exact fits_num rfl 1))).tail
    (.flow rfl (show Node.stmt ⟨⟨0⟩, 1⟩ ∈ _ by decide +kernel))
  have h₃ := (h₂.tail (.execute hstore (.move (.storeField rfl) (by simp)
    fun _ h => by cases h))).tail
    (.flow rfl (show Node.stmt ⟨⟨0⟩, 2⟩ ∈ _ by decide +kernel))
  have h₄ := h₃.tail (.execute hload (.move (.loadField rfl) (by simp)
    fun _ h => by cases h; exact fits_num rfl 1))
  exact h₄

/-- What a parameter of the entry method refers to at the start is seen by no analysis. The variable
that gets a number out of such a box counts as never assigned. -/
theorem borrowing_unseen :
    (Program.index borrowing).Accepted ∧ ∃ r sol m f fact, r.IsOutcome (.index borrowing) ∧
      propagateProgram (.index borrowing) r = .ok sol ∧
      Arises (.index borrowing) [given] m ∧ f ∈ m.frames ∧
      f.point = .behind (.stmt ⟨⟨0⟩, 2⟩) ∧ f.locals ⟨2⟩ = .num 1 ∧
      factAt sol f.point = some fact ∧ fact.get ⟨2⟩ = .unset := by
  have haccepted : borrowing.violations = [] := by decide +kernel
  obtain ⟨⟨r, sol⟩, h, htest⟩ := exists_ok_of_any
    (do
      let r ← analyze (.index borrowing) {} 100
      return (r, ← propagateProgram (.index borrowing) r))
    (fun found => (factAt found.2 (.behind (.stmt ⟨⟨0⟩, 2⟩))).any (·.get ⟨2⟩ = .unset))
    (by decide +kernel)
  obtain ⟨r', hr, h⟩ := bind_eq_ok.1 h
  obtain ⟨sol', hsol, h⟩ := bind_eq_ok.1 h
  cases h
  obtain ⟨fact, hfact, hunset⟩ := (Option.any_eq_true _ _).1 htest
  exact ⟨⟨borrowing, by rw [Program.ofModel, haccepted]⟩, r, sol, _, _, fact,
    Result.isOutcome_of_analyze hr, hsol, borrowing_arises, List.mem_cons_self, rfl, rfl, hfact,
    of_decide_eq_true hunset⟩

end Computation

end ObjectFlow
