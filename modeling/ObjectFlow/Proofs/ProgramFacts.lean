import ObjectFlow.Proofs.Aliases
import ObjectFlow.Proofs.Propagation
import ObjectFlow.Proofs.SuperSolving

/-!
# Constant propagation in a program has a solution

The analysis of a program obeys the laws under which visits come to an end (`superLawful`). Facts
grow at most twice for each variable. The cells of the heap are bounded by the fields, the objects
and the indexes of array stores, of which each store has at most two, since its index grows too
(`Fair`). So the bound on visits is never reached, and what is found solves the equations of the
analysis (`exists_propagateProgram`).
-/

namespace ObjectFlow

open Std PointsTo

/-! ## The supergraph -/

theorem Supergraph.Spans.stmt_mem {p : Program} {r : Result} {g : Supergraph} (hp : p.Accepted)
    (hr : r.Coherent p) (hg : Spans p r.plainCalls g) {site : StmtId} {s : Stmt}
    (hreach : site.method ∈ r.plainCalls.reachable.toList) (hst : p.stmt site = .ok s) :
    Node.stmt site ∈ g.nodes := by
  obtain ⟨method, hm⟩ := hr.methods hreach
  have hs : (site, s) ∈ method.stmts := (Program.mem_stmts hp hm).2 ⟨rfl, hst⟩
  exact hg.nodes.2 ⟨_, hreach, method, hm,
    ControlFlow.mem_nodesOf.2 (Or.inr (Or.inl ⟨site, s, hs, rfl⟩))⟩

theorem Supergraph.Spans.coherent {p : Program} {r : Result} {g : Supergraph} (hp : p.Accepted)
    (hr : r.Coherent p) (hg : Spans p r.plainCalls g) : g.Coherent := by
  have hends := fun {e} he => hg.ends_mem hp hr.methods hr.callees (e := e) he
  refine ⟨fun {m} hm => ?_, fun he => (hends he).1, fun he => (hends he).2, hg.inEdges, hg.succs⟩
  rw [hg.entries, hr.entries] at hm
  obtain rfl := List.mem_singleton.1 hm
  exact (hg.entry_exit_mem hp hr.methods hr.entry).1

namespace Constant

variable {p : Program} {r : Result} {a : Aliasing} {g : Supergraph} {h h' : HeapFact} {n : Node}
  {fact : ConstFact} {site : StmtId} {call : Invoke} {callee : MethodId} {method : Method}

/-! ## Edges -/

section

variable (hst : p.stmt site = .ok (.invoke call)) (next : Node)
include hst

theorem along_callToReturn : along p ⟨.callToReturn, .stmt site, next⟩ fact =
    .ok (match call.result with
      | some lhs => fact.remove lhs
      | none => fact) := by
  refine bind_eq_ok.2 ⟨some call, Program.invoke?_eq_ok.2 ⟨_, hst, rfl⟩, ?_⟩
  cases hres : call.result <;> simp [hres, pure, Except.pure]

theorem along_call : along p ⟨.call, .stmt site, .entry callee⟩ fact =
    enterCallee p call callee fact := by
  simp only [along, Program.invoke?_eq_ok.2 ⟨_, hst, rfl⟩]
  rfl

theorem along_ret : along p ⟨.ret site, .exit callee, next⟩ fact =
    leaveCallee p call callee fact := by
  simp only [along, Program.invoke?_eq_ok.2 ⟨_, hst, rfl⟩]
  rfl

end

/-- A callee starts with nothing but values of its numeric parameters. -/
theorem exists_enterCallee (hp : p.Accepted) (hm : p.method callee = .ok method) :
    ∃ f, enterCallee p call callee fact = .ok f ∧ f.Within p.model.vars.size ∧
      ∀ v, f.get v ≠ .unset → v ∈ method.decl.params ∧ p.holdsInt v = .ok true := by
  obtain ⟨f, hf, hwithin, hparams, -⟩ := exists_foldlM
    (f := fun (start : ConstFact) (e : VarId × VarId) => do
      return if ← p.holdsInt e.2 then start.update e.2 (fact.get e.1) else start)
    (fun rest (f : ConstFact) => f.Within p.model.vars.size ∧
      (∀ v, f.get v ≠ .unset → v ∈ method.decl.params ∧ p.holdsInt v = .ok true) ∧
      ∀ e ∈ rest, e.2 ∈ method.decl.params)
    (fun {e rest f} ⟨hf, hparams, hrest⟩ => by
      have he := hrest e List.mem_cons_self
      have hdecl := Program.declares_of_method hp hm (List.mem_append_left _ he)
      obtain ⟨b, hb⟩ := hdecl.holdsInt
      refine ⟨_, bind_eq_ok.2 ⟨b, hb, rfl⟩, ?_, fun v hv => ?_,
        fun e he => hrest e (List.mem_cons_of_mem _ he)⟩
      · split
        · exact hf.update hdecl.index_lt _
        · exact hf
      · split at hv
        · next hint =>
          rw [ConstFact.get_update] at hv
          split at hv
          · next hev => exact hev ▸ ⟨he, hint ▸ hb⟩
          · exact hparams v hv
        · exact hparams v hv)
    ⟨ConstFact.within_empty, fun v hv => absurd (ConstFact.get_empty v) hv,
      fun e he => (List.of_mem_zip he).2⟩
  exact ⟨f, bind_eq_ok.2 ⟨method, hm, hf⟩, hwithin, hparams⟩

/-- What a callee leaves to its caller. -/
theorem leaveCallee_eq (hm : p.method callee = .ok method) {lhs : VarId}
    (hres : call.result = some lhs) (hint : p.holdsInt lhs = .ok true) :
    leaveCallee p call callee fact = .ok ((∅ : ConstFact).update lhs
      (method.returnVars.foldl (fun acc v => acc.meet (fact.get v)) .unset)) := by
  unfold leaveCallee
  rw [hres]
  exact bind_eq_ok.2 ⟨true, hint, bind_eq_ok.2 ⟨method, hm, rfl⟩⟩

theorem exists_leaveCallee (hp : p.Accepted) (hst : p.stmt site = .ok (.invoke call))
    (hm : p.method callee = .ok method) :
    ∃ f, leaveCallee p call callee fact = .ok f ∧ f.Within p.model.vars.size := by
  cases hres : call.result with
  | none => exact ⟨∅, by unfold leaveCallee; rw [hres]; rfl, ConstFact.within_empty⟩
  | some lhs =>
    have hdecl := Program.declares_defined hp hst (v := lhs) (by simp [Stmt.defined, hres])
    obtain ⟨b, hb⟩ := hdecl.holdsInt
    cases b with
    | false =>
      refine ⟨∅, ?_, ConstFact.within_empty⟩
      unfold leaveCallee
      rw [hres]
      exact bind_eq_ok.2 ⟨false, hb, rfl⟩
    | true => exact ⟨_, leaveCallee_eq hm hres hb, ConstFact.within_empty.update hdecl.index_lt _⟩

theorem exists_along (hp : p.Accepted) (hr : r.Coherent p) {e : SuperEdge}
    (he : Supergraph.Joins p r.plainCalls method e) (hf : fact.Within p.model.vars.size) :
    ∃ f, along p e fact = .ok f ∧ f.Within p.model.vars.size := by
  cases he with
  | normal => exact ⟨fact, rfl, hf⟩
  | callToReturn hst =>
    refine ⟨_, along_callToReturn hst _, ?_⟩
    split
    · exact hf.remove _
    · exact hf
  | call _ hst hcallee =>
    obtain ⟨method', hm⟩ := hr.methods (hr.callees hcallee)
    rw [along_call hst]
    obtain ⟨f, hf, hwithin, -⟩ := exists_enterCallee hp hm
    exact ⟨f, hf, hwithin⟩
  | ret hst hcallee =>
    obtain ⟨method', hm⟩ := hr.methods (hr.callees hcallee)
    rw [along_ret hst]
    exact exists_leaveCallee hp hst hm

/-! ## Nodes -/

theorem exists_transferWithHeap (hp : p.Accepted) {m : MethodId} (hm : p.method m = .ok method)
    (hn : n ∈ ControlFlow.nodesOf method) (hf : fact.Within p.model.vars.size) :
    ∃ out, transferWithHeap p a h n fact = .ok out ∧ out.Within p.model.vars.size := by
  rcases ControlFlow.mem_nodesOf.1 hn with rfl | ⟨site, s, hs, rfl⟩ | rfl
  · exact ⟨fact, rfl, hf⟩
  · obtain ⟨-, hst⟩ := (Program.mem_stmts hp hm).1 hs
    by_cases hcall : s.call?.isSome = true
    · exact ⟨fact, bind_eq_ok.2 ⟨s, hst, by rw [if_pos hcall]; rfl⟩, hf⟩
    · cases hload : a.load? h fact s with
      | some value =>
        obtain ⟨out, hout, hwithin⟩ := exists_assign hp hst ⟨value, rfl⟩ hf
        exact ⟨out, bind_eq_ok.2 ⟨s, hst, by rw [if_neg hcall, hload]; exact hout⟩, hwithin⟩
      | none =>
        obtain ⟨out, hout, hwithin⟩ := exists_assign hp hst (exists_evaluate hp hst fact) hf
        exact ⟨out, bind_eq_ok.2 ⟨s, hst, by rw [if_neg hcall, hload]; exact hout⟩, hwithin⟩
  · exact ⟨fact, rfl, hf⟩

/-- The cells to which a node stores a number, and what is known about the number. -/
inductive Stores (p : Program) (a : Aliasing) (fact : ConstFact) : Node → List Cell → Value → Prop
  | mk {site : StmtId} {s : Stmt} {rhs : VarId} {cells : List Cell} : p.stmt site = .ok s →
      a.store? fact s = some (rhs, cells) → p.holdsInt rhs = .ok true →
      Stores p a fact (.stmt site) cells (fact.get rhs)

theorem Stores.refine_eq {cells : List Cell} {value : Value} (hs : Stores p a fact n cells value)
    (h : HeapFact) : refine p a h n fact = storeAll p a h cells value := by
  cases hs with
  | mk hst hstore hint =>
    simp only [Constant.refine, hst, hstore, hint, bind, Except.bind, if_true]

/-- A statement stores a number to cells or leaves every heap alone, if it is known whether what it
stores is a number. -/
theorem refine_stmt_cases {s : Stmt} (hst : p.stmt site = .ok s)
    (hint : ∀ rhs cells, a.store? fact s = some (rhs, cells) → ∃ b, p.holdsInt rhs = .ok b) :
    (∃ cells value, Stores p a fact (.stmt site) cells value) ∨
      ∀ h, refine p a h (.stmt site) fact = .ok (h, []) := by
  cases hstore : a.store? fact s with
  | none =>
    refine Or.inr fun h => bind_eq_ok.2 ⟨s, hst, ?_⟩
    rw [hstore]
    rfl
  | some e =>
    obtain ⟨rhs, cells⟩ := e
    obtain ⟨b, hb⟩ := hint rhs cells hstore
    cases b with
    | true => exact Or.inl ⟨cells, _, .mk hst hstore hb⟩
    | false =>
      refine Or.inr fun h => bind_eq_ok.2 ⟨s, hst, ?_⟩
      rw [hstore]
      exact bind_eq_ok.2 ⟨false, hb, rfl⟩

theorem refine_cases {affected : List Node} (hr : refine p a h n fact = .ok (h', affected)) :
    (∃ cells value, Stores p a fact n cells value) ∨
      ∀ h, refine p a h n fact = .ok (h, []) := by
  cases n with
  | entry m => exact Or.inr fun _ => rfl
  | exit m => exact Or.inr fun _ => rfl
  | stmt site =>
    obtain ⟨s, hst, hr⟩ := bind_eq_ok.1 hr
    refine refine_stmt_cases hst fun rhs cells hstore => ?_
    rw [hstore] at hr
    obtain ⟨b, hb, -⟩ := bind_eq_ok.1 hr
    exact ⟨b, hb⟩

theorem mem_used_of_store? {s : Stmt} {rhs : VarId} {cells : List Cell}
    (h : a.store? fact s = some (rhs, cells)) : rhs ∈ s.used := by
  unfold Aliasing.store? at h
  split at h <;> simp_all [Stmt.used]

section

variable (hp : p.Accepted) (hr : r.Coherent p) (ha : a.Exact p r)
include hp hr ha

theorem Stores.exists_stored {cells : List Cell} {value : Value}
    (hs : Stores p a fact n cells value) (h : HeapFact) :
    ∃ h' affected, refine p a h n fact = .ok (h', affected) ∧
      Stored p a h cells value h' affected := by
  rw [hs.refine_eq]
  refine exists_storeAll (fun c _ => ?_) h value
  obtain ⟨loads, hloads, -⟩ := exists_loadsOf hp hr ha c
  exact ⟨loads, hloads⟩

theorem Stores.stored {cells : List Cell} {value : Value} {affected : List Node}
    (hs : Stores p a fact n cells value) (heq : refine p a h n fact = .ok (h', affected)) :
    Stored p a h cells value h' affected := by
  obtain ⟨h₁, affected₁, heq₁, hst⟩ := hs.exists_stored hp hr ha h
  cases heq.symm.trans heq₁
  exact hst

theorem exists_refine (hg : Supergraph.Spans p r.plainCalls g) (hn : n ∈ g.nodes) :
    ∃ h' affected, refine p a h n fact = .ok (h', affected) ∧ ∀ m ∈ affected, m ∈ g.nodes := by
  obtain ⟨m, -, method, hm, hn⟩ := hg.nodes.1 hn
  rcases ControlFlow.mem_nodesOf.1 hn with rfl | ⟨site, s, hs, rfl⟩ | rfl
  · exact ⟨h, [], rfl, by simp⟩
  · obtain ⟨-, hst⟩ := (Program.mem_stmts hp hm).1 hs
    have hcases := refine_stmt_cases hst fun rhs cells (hstore : a.store? fact s = _) =>
      (Program.declares_used hp hst (mem_used_of_store? hstore)).holdsInt
    rcases hcases with ⟨cells, value, hstores⟩ | hall
    · obtain ⟨h', affected, heq, hstored⟩ := hstores.exists_stored hp hr ha h
      refine ⟨h', affected, heq, fun k hk => ?_⟩
      -- What is listed are loads, and these are in reachable methods.
      obtain ⟨c, -, loads, hl, load, hload, rfl⟩ := hstored.source k hk
      obtain ⟨loads', hl', hreach, -⟩ := exists_loadsOf hp hr ha c
      cases hl.symm.trans hl'
      obtain ⟨hmethod, s', hst'⟩ := hreach load hload
      exact hg.stmt_mem hp hr hmethod hst'
    · exact ⟨h, [], hall h, by simp⟩
  · exact ⟨h, [], rfl, by simp⟩

theorem refine_again {affected : List Node} (heq : refine p a h n fact = .ok (h', affected)) :
    refine p a h' n fact = .ok (h', []) := by
  rcases refine_cases heq with ⟨cells, value, hs⟩ | hall
  · rw [hs.refine_eq]
    exact storeAll_of_le (hs.stored hp hr ha heq).takes
  · exact hall h'

/-- What has been stored stays stored. -/
theorem refine_mono (hle : ∀ c, h.get c ≤ h'.get c) (heq : refine p a h n fact = .ok (h, [])) :
    refine p a h' n fact = .ok (h', []) := by
  rcases refine_cases heq with ⟨cells, value, hs⟩ | hall
  · rw [hs.refine_eq]
    exact storeAll_of_le fun c hc => ((hs.stored hp hr ha heq).takes c hc).trans (hle c)
  · exact hall h'

theorem le_of_refine {affected : List Node} (heq : refine p a h n fact = .ok (h', affected))
    (c : Cell) : h.get c ≤ h'.get c := by
  rcases refine_cases heq with ⟨cells, value, hs⟩ | hall
  · exact (hs.stored hp hr ha heq).grows c
  · cases (hall h).symm.trans heq
    exact le_rfl

theorem weight_of_refine {affected : List Node}
    (heq : refine p a h n fact = .ok (h', affected)) :
    h' = h ∧ affected = [] ∨ h.weight < h'.weight := by
  rcases refine_cases heq with ⟨cells, value, hs⟩ | hall
  · exact (hs.stored hp hr ha heq).weight
  · cases (hall h).symm.trans heq
    exact Or.inl ⟨rfl, rfl⟩

/-- A node that is not listed as affected sees no difference. -/
theorem transfer_unaffected (hg : Supergraph.Spans p r.plainCalls g) {affected : List Node}
    (heq : refine p a h n fact = .ok (h', affected)) {k : Node} {fact' : ConstFact}
    (hk : k ∈ g.nodes) (hnot : k ∉ affected) :
    transferWithHeap p a h' k fact' = transferWithHeap p a h k fact' := by
  obtain ⟨m, hreach, method, hm, hk⟩ := hg.nodes.1 hk
  rcases ControlFlow.mem_nodesOf.1 hk with rfl | ⟨site, s, hs, rfl⟩ | rfl
  · rfl
  · obtain ⟨hmethod, hst⟩ := (Program.mem_stmts hp hm).1 hs
    have hload : a.load? h' fact' s = a.load? h fact' s := load?_congr fun c hread => by
      rcases refine_cases heq with ⟨cells, value, hstores⟩ | hall
      · by_contra hne
        obtain ⟨loads, hl, -, hmem⟩ := exists_loadsOf hp hr ha c
        exact hnot ((hstores.stored hp hr ha heq).changed c hne loads hl site
          (hmem site s fact' (hmethod ▸ hreach) hst hread))
      · cases (hall h).symm.trans heq
        rfl
    simp only [transferWithHeap, hst, bind, Except.bind, hload]
  · rfl

end

/-! ## How many cells there are -/

/-- The cells of static fields, of the fields of objects, and of arrays at some indexes. -/
def cellUniverse (fields objects : Nat) (indexes : Finset Value) : Finset Cell :=
  (Finset.range fields).image (fun f => .staticField ⟨f⟩)
    ∪ (Finset.range objects ×ˢ Finset.range fields).image (fun e => .instanceField ⟨e.1⟩ ⟨e.2⟩)
    ∪ (Finset.range objects ×ˢ indexes).image (fun e => .element ⟨e.1⟩ e.2)

theorem card_cellUniverse_le (fields objects : Nat) (indexes : Finset Value) :
    (cellUniverse fields objects indexes).card ≤
      fields * (objects + 1) + objects * indexes.card := by
  have hstatic : ((Finset.range fields).image (fun f => Cell.staticField ⟨f⟩)).card ≤ fields :=
    Finset.card_image_le.trans (Finset.card_range fields).le
  have hinstance : ((Finset.range objects ×ˢ Finset.range fields).image
      (fun e => Cell.instanceField ⟨e.1⟩ ⟨e.2⟩)).card ≤ fields * objects := by
    refine Finset.card_image_le.trans (Nat.le_of_eq ?_)
    rw [Finset.card_product, Finset.card_range, Finset.card_range, Nat.mul_comm]
  have helement : ((Finset.range objects ×ˢ indexes).image
      (fun e => Cell.element ⟨e.1⟩ e.2)).card ≤ objects * indexes.card := by
    refine Finset.card_image_le.trans (Nat.le_of_eq ?_)
    rw [Finset.card_product, Finset.card_range]
  unfold cellUniverse
  rw [Nat.mul_succ]
  refine (Finset.card_union_le _ _).trans (Nat.add_le_add ?_ helement)
  exact (Finset.card_union_le _ _).trans (by omega)

theorem cellUniverse_mono {fields objects : Nat} {indexes indexes' : Finset Value}
    (h : indexes ⊆ indexes') :
    cellUniverse fields objects indexes ⊆ cellUniverse fields objects indexes' := by
  unfold cellUniverse
  gcongr

/-- The index at which a node stores to an array. -/
def storeIndex (p : Program) (fact : ConstFact) : Node → Value
  | .stmt site => match p.stmt site with
    | .ok (.storeArray _ index _) => fact.get index
    | _ => .unset
  | .entry _ | .exit _ => .unset

theorem storeIndex_mono {fact fact' : ConstFact} (h : fact ≤ fact') (n : Node) :
    storeIndex p fact n ≤ storeIndex p fact' n := by
  unfold storeIndex
  split
  · split
    · exact h _
    · exact le_rfl
  · exact le_rfl
  · exact le_rfl

/-- The cells to which a node stores are cells at the index of the node. -/
theorem Stores.mem_cellUniverse (hp : p.Accepted) (hr : r.Coherent p) (ha : a.Exact p r)
    {cells : List Cell} {value : Value} (hs : Stores p a fact n cells value)
    {indexes : Finset Value}
    (hindex : storeIndex p fact n ≠ .unset → storeIndex p fact n ∈ indexes) :
    ∀ c ∈ cells, c ∈ cellUniverse p.model.fields.size r.arena.objects.size indexes := by
  have hobject : ∀ {v o}, o ∈ (a.pointsTo v).toList → o.index < r.arena.objects.size :=
    fun ho => hr.object_lt (ha.mem_pointsTo.1 (ExtTreeSet.mem_toList.1 ho))
  cases hs with
  | @mk site s rhs _ hst hstore _ =>
    intro c hc
    unfold cellUniverse
    simp only [Finset.mem_union, Finset.mem_image, Finset.mem_product, Finset.mem_range,
      Prod.exists]
    unfold Aliasing.store? at hstore
    split at hstore
    · cases hstore
      obtain rfl := List.mem_singleton.1 hc
      exact Or.inl (Or.inl ⟨_, Program.field_lt_of_store hp hst, rfl⟩)
    · cases hstore
      obtain ⟨o, ho, rfl⟩ := List.mem_map.1 hc
      exact Or.inl (Or.inr ⟨_, _, ⟨hobject ho, Program.field_lt_of_store hp hst⟩, rfl⟩)
    · cases hstore
      have hat : ∀ base index rhs, p.stmt site = .ok (.storeArray base index rhs) →
          storeIndex p fact (.stmt site) = fact.get index := fun base index rhs h => by
        simp only [storeIndex, h]
      rw [hat _ _ _ hst] at hindex
      split at hc
      · cases hc
      · next hset =>
        obtain ⟨o, ho, rfl⟩ := List.mem_map.1 hc
        exact Or.inr ⟨_, _, ⟨hobject ho, hindex hset⟩, rfl⟩
    · cases hstore

/-- A heap is fair to the inputs of nodes if it has cells only at indexes that a node has had. The
index of a node has had at most as many values as its height tells. -/
def Fair (p : Program) (r : Result) (g : Supergraph) (h : HeapFact)
    (input : ExtTreeMap Node ConstFact) : Prop :=
  ∃ indexes : Node → Finset Value, (∀ n, (indexes n).card ≤ 2) ∧
    (∀ n fact, input[n]? = some fact → (indexes n).card ≤ (storeIndex p fact n).height ∧
      (storeIndex p fact n ≠ .unset → storeIndex p fact n ∈ indexes n)) ∧
    h.support ⊆ cellUniverse p.model.fields.size r.arena.objects.size
      (g.nodes.toFinset.biUnion indexes)

theorem Fair.weight_le {input : ExtTreeMap Node ConstFact} (hf : Fair p r g h input) :
    h.weight ≤ 2 * (p.model.fields.size * (r.arena.objects.size + 1) +
      r.arena.objects.size * (2 * g.nodes.length)) := by
  obtain ⟨indexes, hcard, -, hsupport⟩ := hf
  have hunion : (g.nodes.toFinset.biUnion indexes).card ≤ 2 * g.nodes.length := calc
    _ ≤ g.nodes.toFinset.card * 2 := Finset.card_biUnion_le_card_mul _ _ _ fun n _ => hcard n
    _ ≤ 2 * g.nodes.length := by
      rw [Nat.mul_comm]
      exact Nat.mul_le_mul_left 2 g.nodes.toFinset_card_le
  calc
    h.weight ≤ 2 * h.support.card := h.weight_le
    _ ≤ 2 * (p.model.fields.size * (r.arena.objects.size + 1) +
        r.arena.objects.size * (g.nodes.toFinset.biUnion indexes).card) :=
      Nat.mul_le_mul_left 2 ((Finset.card_le_card hsupport).trans (card_cellUniverse_le _ _ _))
    _ ≤ _ := Nat.mul_le_mul_left 2 (Nat.add_le_add_left (Nat.mul_le_mul_left _ hunion) _)

/-- When an index grows it has one more value or the one that it had. -/
theorem exists_values_of_le {values : Finset Value} {i j : Value} (hle : i ≤ j)
    (hcard : values.card ≤ i.height) (hmem : i ≠ .unset → i ∈ values) :
    ∃ values', values ⊆ values' ∧ values'.card ≤ j.height ∧ (j ≠ .unset → j ∈ values') := by
  rcases hle.eq_or_lt with rfl | hlt
  · exact ⟨values, Finset.Subset.refl _, hcard, hmem⟩
  · refine ⟨insert j values, Finset.subset_insert _ _, ?_, fun _ => Finset.mem_insert_self _ _⟩
    have hlt := Value.height_lt hlt
    have hinsert := Finset.card_insert_le j values
    omega

theorem Fair.refine (hp : p.Accepted) (hr : r.Coherent p) (ha : a.Exact p r)
    {input : ExtTreeMap Node ConstFact} (hf : Fair p r g h input) (hn : n ∈ g.nodes)
    {before : ConstFact} (hbefore : input[n]? = some before) (hle : before ≤ fact)
    {affected : List Node} (heq : Constant.refine p a h n fact = .ok (h', affected)) :
    Fair p r g h' (input.insert n fact) := by
  obtain ⟨indexes, hcard, hindexes, hsupport⟩ := hf
  obtain ⟨hheight, hmem⟩ := hindexes n before hbefore
  obtain ⟨values, hsub, hcount, hvalue⟩ :=
    exists_values_of_le (storeIndex_mono hle n) hheight hmem
  have hmore : g.nodes.toFinset.biUnion indexes ⊆
      g.nodes.toFinset.biUnion (Function.update indexes n values) := by
    refine Finset.biUnion_mono fun k _ => ?_
    by_cases hk : k = n
    · subst hk
      rwa [Function.update_self]
    · rw [Function.update_of_ne hk]
  have hnew : values ⊆ g.nodes.toFinset.biUnion (Function.update indexes n values) := by
    have := Finset.subset_biUnion_of_mem (Function.update indexes n values)
      (List.mem_toFinset.2 hn)
    rwa [Function.update_self] at this
  refine ⟨Function.update indexes n values, fun k => ?_, fun k f hk => ?_, fun c hc => ?_⟩
  · by_cases hkn : k = n
    · subst hkn
      rw [Function.update_self]
      exact hcount.trans (Value.height_le _)
    · rw [Function.update_of_ne hkn]
      exact hcard k
  · rcases insert_cases hk with ⟨rfl, rfl⟩ | ⟨hkn, hk⟩
    · rw [Function.update_self]
      exact ⟨hcount, hvalue⟩
    · rw [Function.update_of_ne hkn]
      exact hindexes k f hk
  · rcases refine_cases heq with ⟨cells, value, hs⟩ | hall
    · rcases (hs.stored hp hr ha heq).support c hc with hc | hc
      · exact cellUniverse_mono hmore (hsupport hc)
      · exact hs.mem_cellUniverse hp hr ha (fun hset => hnew (hvalue hset)) c hc
    · cases (hall h).symm.trans heq
      exact cellUniverse_mono hmore (hsupport hc)

/-! ## Solutions -/

/-- The analysis obeys the laws under which visits come to an end. -/
theorem superLawful (hp : p.Accepted) (hr : r.Coherent p) (ha : a.Exact p r)
    (hg : Supergraph.Spans p r.plainCalls g) :
    (superAnalysis p a).Lawful g (ConstFact.Within p.model.vars.size)
      (ConstFact.height p.model.vars.size) (2 * p.model.vars.size) (Fair p r g) HeapFact.weight
      (2 * (p.model.fields.size * (r.arena.objects.size + 1) +
        r.arena.objects.size * (2 * g.nodes.length))) where
  meet _ _ := rfl
  initial := ConstFact.within_empty
  boundary {m} hm := by
    rw [hg.entries, hr.entries] at hm
    obtain rfl := List.mem_singleton.1 hm
    obtain ⟨method, hmethod⟩ := Program.exists_entry hp
    obtain ⟨f, hf, hwithin, -⟩ := exists_boundary hp hmethod
    exact ⟨f, hf, hwithin⟩
  sup := .sup
  along he hf := by
    obtain ⟨m, -, method, -, hjoin⟩ := hg.edges.1 he
    exact exists_along hp hr hjoin hf
  refine hn _ := exists_refine hp hr ha hg hn
  transfer hn hf := by
    obtain ⟨m, -, method, hm, hn⟩ := hg.nodes.1 hn
    exact exists_transferWithHeap hp hm hn hf
  height_lt _ hf h := ConstFact.height_lt hf h
  height_le _ := ConstFact.height_le ..
  refine_same := refine_again hp hr ha
  refine_other heq hsame := refine_mono hp hr ha (le_of_refine hp hr ha heq) hsame
  unaffected heq hk hnot := transfer_unaffected hp hr ha hg heq hk hnot
  weight_lt := weight_of_refine hp hr ha
  weight_le hf := hf.weight_le
  fair hf hn hbefore hle _ heq := hf.refine hp hr ha hn hbefore hle heq

/-- At first nothing has been stored, and only entries have facts. -/
theorem fair_initial {input : ExtTreeMap Node ConstFact}
    (hinput : Dataflow.Super.Initial (superAnalysis p a) g input) : Fair p r g {} input := by
  have hunset : ∀ n fact, input[n]? = some fact → storeIndex p fact n = .unset := by
    intro n fact hfact
    rcases hinput n fact hfact with rfl | ⟨m, -, rfl, -⟩
    · unfold storeIndex
      split
      · split
        · exact ConstFact.get_empty _
        · rfl
      · rfl
      · rfl
    · rfl
  refine ⟨fun _ => ∅, by simp, fun n fact hfact => ⟨by simp, fun hset => ?_⟩, fun c hc => ?_⟩
  · exact absurd (hunset n fact hfact) hset
  · rw [HeapFact.mem_support] at hc
    simp at hc

theorem le_visitBound : g.nodes.length * (g.nodes.length * (2 * p.model.vars.size +
    2 * (p.model.fields.size * (r.arena.objects.size + 1) +
      r.arena.objects.size * (2 * g.nodes.length)) + 1) + 1) ≤ visitBound p r g := by
  have hbound : ∀ nodes vars cells : Nat, nodes * (nodes * (2 * vars + 2 * cells + 1) + 1) ≤
      nodes * (nodes + 1) * (2 * (vars + cells) + 1) := by
    intro nodes vars cells
    rw [Nat.mul_assoc, Nat.mul_add 2 vars cells, Nat.add_mul nodes 1]
    exact Nat.mul_le_mul_left nodes (by omega)
  exact hbound _ _ _

/-- The course of constant propagation in a program, from the first state to the last one. -/
structure Course (p : Program) (r : Result) (a : Aliasing) (g : Supergraph)
    (first final : Dataflow.SuperProgress HeapFact ConstFact) : Prop where
  aliases : Aliasing.ofResult p r = .ok a
  graph : Supergraph.ofCalls p r.plainCalls = .ok g
  start : Dataflow.Super.start (superAnalysis p a) g {} = .ok first
  run : Dataflow.Super.run (superAnalysis p a) g (visitBound p r g) first = .ok final

/-- The states between the visits of constant propagation. -/
abbrev Settling (p : Program) (r : Result) (a : Aliasing) (g : Supergraph) :
    Dataflow.SuperProgress HeapFact ConstFact → Prop :=
  Dataflow.Super.Settling (superAnalysis p a) g (ConstFact.Within p.model.vars.size) (Fair p r g)

theorem Course.propagateProgram_eq {first final : Dataflow.SuperProgress HeapFact ConstFact}
    (hc : Course p r a g first final) :
    propagateProgram p r = .ok ⟨final.input, final.output, final.visited.reverse⟩ :=
  bind_eq_ok.2 ⟨g, hc.graph, bind_eq_ok.2 ⟨a, hc.aliases, bind_eq_ok.2 ⟨first, hc.start,
    bind_eq_ok.2 ⟨final, hc.run, rfl⟩⟩⟩⟩

theorem exists_course (hp : p.Accepted) (hr : r.Coherent p) :
    ∃ a g first final, Course p r a g first final ∧ a.Exact p r ∧
      Supergraph.Spans p r.plainCalls g ∧ Settling p r a g first ∧ Settling p r a g final ∧
      final.agenda.toList = [] := by
  obtain ⟨a, hofResult, ha⟩ := exists_ofResult hp hr
  obtain ⟨g, hofCalls, hg⟩ := Supergraph.exists_ofCalls hp fun m => hr.methods
  obtain ⟨first, final, hstart, hfirst, hrun, hfinal, hdone⟩ := Dataflow.Super.exists_run
    (hg.coherent hp hr) (superLawful hp hr ha hg) (fun _ => fair_initial) le_visitBound
  exact ⟨a, g, first, final, ⟨hofResult, hofCalls, hstart, hrun⟩, ha, hg, hfirst, hfinal, hdone⟩

/-- **Solutions exist.** Constant propagation in a program never runs out of visits, and what it
finds solves the equations of the analysis. -/
theorem exists_propagateProgram (hp : p.Accepted) (hr : r.Coherent p) :
    ∃ a g heap sol, a.Exact p r ∧ Supergraph.Spans p r.plainCalls g ∧
      propagateProgram p r = .ok sol ∧
      Dataflow.SuperSolved (superAnalysis p a) g heap sol.inFacts sol.outFacts := by
  obtain ⟨a, g, first, final, hc, ha, hg, -, hfinal, hdone⟩ := exists_course hp hr
  exact ⟨a, g, final.shared, _, ha, hg, hc.propagateProgram_eq,
    hfinal.solved (hg.coherent hp hr) hdone⟩

end Constant

end ObjectFlow
