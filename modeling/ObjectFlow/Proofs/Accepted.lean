import ObjectFlow.Program.Basic

/-!
# Accepted programs

What the checks of a model promise to an analysis. Names that occur in an accepted program lead to
declarations, the variables of a statement are declared in its method, calls find the methods they
name, and the indexes list exactly the statements they are meant to list.

`stmt_eq_ok` and `mem_stmts` say how a statement is found, `mem_sitesThrough` that the uses of a
variable are exact, and `callee_total` that a call on an object of a declared class can be resolved.
-/

namespace ObjectFlow

/-! ## Chains of computations that may fail -/

theorem bind_eq_ok {α β : Type} {x : Except Fault α} {f : α → Except Fault β} {b : β} :
    x >>= f = .ok b ↔ ∃ a, x = .ok a ∧ f a = .ok b := by
  cases x with
  | error e =>
    constructor
    · intro h
      cases h
    · rintro ⟨a, ha, -⟩
      cases ha
  | ok a =>
    constructor
    · intro h
      exact ⟨a, rfl, h⟩
    · rintro ⟨a', ha, h⟩
      cases ha
      exact h

theorem pure_eq_ok {α : Type} {a b : α} : (pure a : Except Fault α) = .ok b ↔ a = b := by
  constructor
  · intro h
    cases h
    rfl
  · rintro rfl
    rfl

/-- A computation that passes a test has a result that passes it. -/
theorem exists_ok_of_any {α : Type} (x : Except Fault α) (test : α → Bool)
    (h : x.toOption.any test = true) : ∃ a, x = .ok a ∧ test a = true := by
  cases x with
  | error e => cases h
  | ok a => exact ⟨a, rfl, h⟩

/-! ## Tables -/

theorem getElem?_range_zip {α : Type} {kind : Kind} (table : Array α) (i : Nat) :
    ((Id.range kind table.size).zip table.toList)[i]? = table[i]?.map fun a => (⟨i⟩, a) := by
  rw [List.zip, List.getElem?_zipWith, Id.range, List.getElem?_map]
  by_cases h : i < table.size
  · rw [List.getElem?_range h, Array.getElem?_toList, Array.getElem?_eq_getElem h]
    rfl
  · rw [List.getElem?_eq_none (by simpa using h), Array.getElem?_eq_none (by omega)]
    rfl

theorem mem_range_zip {α : Type} {kind : Kind} {table : Array α} {i : Id kind} {a : α} :
    (i, a) ∈ (Id.range kind table.size).zip table.toList ↔ table[i.index]? = some a := by
  rw [List.mem_iff_getElem?]
  constructor
  · rintro ⟨j, hj⟩
    rw [getElem?_range_zip, Option.map_eq_some_iff] at hj
    obtain ⟨b, hb, he⟩ := hj
    cases he
    exact hb
  · intro h
    exact ⟨i.index, by rw [getElem?_range_zip, h]; rfl⟩

/-- Where all members of a list but one give nothing, that one gives everything. -/
theorem flatMap_eq_of_forall_ne {α β : Type} {as : List α} {f : α → List β} {a : α}
    (hnodup : as.Nodup) (ha : a ∈ as) (h : ∀ b ∈ as, b ≠ a → f b = []) : as.flatMap f = f a := by
  obtain ⟨front, back, rfl⟩ := List.append_of_mem ha
  have hfront : front.flatMap f = [] := by
    refine List.flatMap_eq_nil_iff.2 fun b hb => h b (by simp [hb]) ?_
    rintro rfl
    exact (List.nodup_append.1 hnodup).2.2 b hb b List.mem_cons_self rfl
  have hback : back.flatMap f = [] := by
    refine List.flatMap_eq_nil_iff.2 fun b hb => h b (by simp [hb]) ?_
    rintro rfl
    exact (List.nodup_cons.1 (List.nodup_append.1 hnodup).2.1).1 hb
  rw [List.flatMap_append, List.flatMap_cons, hfront, hback, List.nil_append, List.append_nil]

namespace Model

variable {m : Model}

theorem mem_methodEntries {id : MethodId} {d : MethodDecl} :
    (id, d) ∈ m.methodEntries ↔ m.methods[id.index]? = some d := mem_range_zip

theorem mem_stmts {d : MethodDecl} {id : MethodId} {site : StmtId} {s : Stmt} :
    (site, s) ∈ d.stmts id ↔ site.method = id ∧ d.body[site.index]? = some s := by
  obtain ⟨method, i⟩ := site
  simp only [MethodDecl.stmts, List.mem_map, Prod.mk.injEq, StmtId.mk.injEq]
  constructor
  · rintro ⟨⟨t, j⟩, hj, ⟨rfl, rfl⟩, rfl⟩
    rw [List.mk_mem_zipIdx_iff_getElem?] at hj
    exact ⟨rfl, by simpa using hj⟩
  · rintro ⟨rfl, h⟩
    exact ⟨(s, i), List.mk_mem_zipIdx_iff_getElem?.2 (by simpa using h), ⟨rfl, rfl⟩, rfl⟩

theorem mem_sitesWhere {stmts : List (StmtId × Stmt)} {test : Stmt → Bool} {site : StmtId} :
    site ∈ sitesWhere stmts test ↔ ∃ s, (site, s) ∈ stmts ∧ test s = true := by
  simp [sitesWhere]

/-- Statements are listed as they stand in the body. -/
theorem stmts_ascending (d : MethodDecl) (id : MethodId) :
    (d.stmts id).Pairwise fun s s' => s.1.index < s'.1.index := by
  have hindex : (d.stmts id).map (·.1.index) = List.range d.body.size := by
    simp [MethodDecl.stmts, List.map_map, Function.comp_def, List.zipIdx_map_snd,
      List.range_eq_range']
  rw [← List.pairwise_map (R := (· < ·)), hindex]
  exact List.pairwise_lt_range

theorem sitesWhere_ascending (d : MethodDecl) (id : MethodId) (test : Stmt → Bool) :
    (sitesWhere (d.stmts id) test).Pairwise (·.index < ·.index) := by
  rw [sitesWhere, List.pairwise_map]
  exact (stmts_ascending d id).filter _

end Model

theorem Roster.mem_insertMany {α : Type} [Keyed α] {a : α} :
    ∀ {as : List α} {r : Roster α}, a ∈ (r.insertMany as).toList ↔ a ∈ r.toList ∨ a ∈ as
  | [], r => by simp [insertMany]
  | b :: as, r => by
    show a ∈ ((r.insert b).insertMany as).toList ↔ _
    rw [mem_insertMany, mem_insert, List.mem_cons, or_assoc]

theorem Roster.mem_ofList {α : Type} [Keyed α] {a : α} {as : List α} :
    a ∈ (ofList as).toList ↔ a ∈ as := by
  rw [ofList, mem_insertMany]
  simp

theorem Roster.ofList_concat {α : Type} [Keyed α] (as : List α) (a : α) :
    ofList (as ++ [a]) = (ofList as).insert a := by
  rw [ofList, insertMany, List.foldl_append]
  rfl

/-- The variable whose objects a statement goes through: its base or its receiver. -/
def Stmt.through : Stmt → Option VarId
  | storeField access _ | loadField _ access => access.base
  | storeArray base _ _ | loadArray _ base _ => some base
  | invoke call => call.receiver
  | _ => none

theorem Stmt.mem_used_of_through {s : Stmt} {v : VarId} (h : s.through = some v) : v ∈ s.used := by
  cases s <;> simp_all [Stmt.through, Stmt.used]

namespace Program

variable {p : Program}

/-- A program whose model has passed the checks. -/
def Accepted (p : Program) : Prop := ∃ m, ofModel m = .ok p

/-- A variable is declared, and by this method. -/
def Declares (p : Program) (m : MethodId) (v : VarId) : Prop :=
  ∃ d, p.var v = .ok d ∧ d.method = m

theorem Accepted.eq_index (hp : p.Accepted) : p.model.violations = [] ∧ p = index p.model := by
  obtain ⟨m, h⟩ := hp
  unfold ofModel at h
  split at h
  · next hm =>
    cases h
    exact ⟨hm, rfl⟩
  · cases h

/-! ## Methods and statements -/

theorem getElem?_methods_index (m : Model) (i : Nat) :
    (index m).methods[i]? = m.methods[i]?.map (m.indexedMethod ⟨i⟩) := by
  simp only [index, List.getElem?_toArray, List.getElem?_map, Model.methodEntries, Model.methodIds,
    getElem?_range_zip, Option.map_map]
  rfl

theorem getElem?_uses_index (m : Model) (i : Nat) : (index m).uses[i]? = m.vars[i]?.map fun d =>
    Model.varUses ((m.methods[d.method.index]?.map (·.stmts d.method)).getD []) ⟨i⟩ := by
  simp only [index, List.getElem?_toArray, List.getElem?_map, Model.varEntries, Model.varIds,
    getElem?_range_zip, Option.map_map]
  rfl

theorem stmt_eq_ok {site : StmtId} {s : Stmt} :
    p.stmt site = .ok s ↔
      ∃ method, p.method site.method = .ok method ∧ method.decl.body[site.index]? = some s := by
  simp only [stmt, bind_eq_ok, orUnknown_eq_ok]

theorem invoke?_eq_ok {site : StmtId} {call : Option Invoke} :
    p.invoke? site = .ok call ↔ ∃ s, p.stmt site = .ok s ∧ s.call? = call := by
  simp only [invoke?, bind_eq_ok, pure_eq_ok]

section

variable (hp : p.Accepted)
include hp

theorem method_eq_ok {id : MethodId} {method : Method} :
    p.method id = .ok method ↔
      ∃ d, p.model.methods[id.index]? = some d ∧ p.model.indexedMethod id d = method := by
  rw [hp.eq_index.2, Program.method, orUnknown_eq_ok, getElem?_methods_index,
    Option.map_eq_some_iff]
  rfl

theorem mem_stmts {id : MethodId} {method : Method} (hm : p.method id = .ok method)
    {site : StmtId} {s : Stmt} :
    (site, s) ∈ method.stmts ↔ site.method = id ∧ p.stmt site = .ok s := by
  obtain ⟨d, hd, rfl⟩ := (method_eq_ok hp).1 hm
  show (site, s) ∈ d.stmts id ↔ _
  rw [Model.mem_stmts, stmt_eq_ok]
  constructor
  · rintro ⟨rfl, hs⟩
    exact ⟨rfl, _, hm, hs⟩
  · rintro ⟨rfl, method, hm', hs⟩
    rw [hm] at hm'
    cases hm'
    exact ⟨rfl, hs⟩

/-- A method and each of its statements have passed their checks. -/
theorem methodViolations_eq_nil {id : MethodId} {d : MethodDecl}
    (hd : p.model.methods[id.index]? = some d) : p.model.methodViolations id d = [] := by
  have h := hp.eq_index.1
  simp only [Model.violations, List.append_eq_nil_iff, List.flatMap_eq_nil_iff] at h
  exact h.1.2 (id, d) (Model.mem_methodEntries.2 hd)

theorem stmtViolations_eq_nil {site : StmtId} {s : Stmt} (h : p.stmt site = .ok s) :
    ∃ d, p.model.stmtViolations d site s = [] := by
  obtain ⟨method, hm, hs⟩ := stmt_eq_ok.1 h
  obtain ⟨d, hd, rfl⟩ := (method_eq_ok hp).1 hm
  have hv := methodViolations_eq_nil hp hd
  simp only [Model.methodViolations, List.append_eq_nil_iff, List.flatMap_eq_nil_iff] at hv
  exact ⟨d, hv.2 (site, s) (Model.mem_stmts.2 ⟨rfl, hs⟩)⟩

theorem exists_entry : ∃ method, p.method p.entry = .ok method := by
  have h := hp.eq_index.1
  simp only [Model.violations, Model.tableViolations, List.append_eq_nil_iff] at h
  have hlt : p.model.entry.index < p.model.methods.size := by
    by_cases hc : p.model.entry.index < p.model.methods.size
    · exact hc
    · simp [hc] at h
  exact ⟨_, (method_eq_ok hp).2 ⟨_, Array.getElem?_eq_getElem hlt, rfl⟩⟩

/-! ## Variables -/

omit hp in
theorem declares_of_varViolations {m : MethodId} {site : StmtId} {v : VarId}
    (h : p.model.varViolations m site v = []) : p.Declares m v := by
  unfold Model.varViolations at h
  split at h
  · cases h
  · next d hd =>
    refine ⟨d, orUnknown_eq_ok.2 hd, ?_⟩
    by_cases hc : d.method = m
    · exact hc
    · simp [hc] at h

theorem declares_of_stmt {site : StmtId} {s : Stmt} (h : p.stmt site = .ok s) {v : VarId}
    (hv : v ∈ s.defined.toList ++ s.used) : p.Declares site.method v := by
  obtain ⟨d, hs⟩ := stmtViolations_eq_nil hp h
  simp only [Model.stmtViolations, List.append_eq_nil_iff, List.flatMap_eq_nil_iff] at hs
  exact declares_of_varViolations (hs.1 v hv)

theorem declares_of_method {m : MethodId} {method : Method} (h : p.method m = .ok method)
    {v : VarId} (hv : v ∈ method.decl.params ++ method.decl.this.toList) : p.Declares m v := by
  obtain ⟨d, hd, rfl⟩ := (method_eq_ok hp).1 h
  have hs := methodViolations_eq_nil hp hd
  simp only [Model.methodViolations, List.append_eq_nil_iff, List.flatMap_eq_nil_iff] at hs
  exact declares_of_varViolations (hs.1.2 v hv)

theorem mem_returnVars {m : MethodId} {method : Method} (h : p.method m = .ok method) {v : VarId} :
    v ∈ method.returnVars ↔ ∃ site, site.method = m ∧ p.stmt site = .ok (.ret (some v)) := by
  have hs : ∀ site s, (site, s) ∈ method.stmts ↔ site.method = m ∧ p.stmt site = .ok s :=
    fun _ _ => mem_stmts hp h
  obtain ⟨d, hd, rfl⟩ := (method_eq_ok hp).1 h
  show v ∈ (Roster.ofList (List.filterMap _ (d.stmts m))).toList ↔ _
  rw [Roster.mem_ofList, List.mem_filterMap]
  constructor
  · rintro ⟨⟨site, s⟩, hm, hr⟩
    obtain ⟨hsite, hst⟩ := (hs site s).1 hm
    refine ⟨site, hsite, ?_⟩
    split at hr
    · next heq =>
      cases heq
      rw [hr] at hst
      exact hst
    · cases hr
  · rintro ⟨site, hsite, hst⟩
    exact ⟨(site, .ret (some v)), (hs _ _).2 ⟨hsite, hst⟩, rfl⟩

theorem mem_callSites {m : MethodId} {method : Method} (h : p.method m = .ok method)
    {site : StmtId} :
    site ∈ method.callSites ↔ site.method = m ∧ ∃ call, p.stmt site = .ok (.invoke call) := by
  have hs : ∀ s, (site, s) ∈ method.stmts ↔ site.method = m ∧ p.stmt site = .ok s :=
    fun _ => mem_stmts hp h
  obtain ⟨d, hd, rfl⟩ := (method_eq_ok hp).1 h
  simp only [Model.indexedMethod, Model.mem_sitesWhere]
  constructor
  · rintro ⟨s, hm, hc⟩
    obtain ⟨hsite, hst⟩ := (hs s).1 hm
    cases s <;> simp only [Stmt.call?, Option.isSome_none, Bool.false_eq_true] at hc
    exact ⟨hsite, _, hst⟩
  · rintro ⟨hsite, call, hst⟩
    exact ⟨_, (hs _).2 ⟨hsite, hst⟩, rfl⟩

theorem exists_method_of_declares {m : MethodId} {v : VarId} (h : p.Declares m v) :
    ∃ method, p.method m = .ok method := by
  obtain ⟨d, hd, rfl⟩ := h
  have hv := hp.eq_index.1
  simp only [Model.violations, Model.tableViolations, List.append_eq_nil_iff,
    List.flatMap_eq_nil_iff] at hv
  have hvar := (hv.1.1.1.1.1.1.2 d (by
    simpa using Array.mem_of_getElem? (orUnknown_eq_ok.1 hd))).1
  have hlt : d.method.index < p.model.methods.size := by
    by_cases hc : d.method.index < p.model.methods.size
    · exact hc
    · simp [hc] at hvar
  exact ⟨_, (method_eq_ok hp).2 ⟨_, Array.getElem?_eq_getElem hlt, rfl⟩⟩

theorem varUses_eq_ok {v : VarId} {uses : VarUses} :
    p.varUses v = .ok uses ↔
      ∃ m method, p.Declares m v ∧ p.method m = .ok method ∧
        Model.varUses method.stmts v = uses := by
  have key : p.varUses v = .ok uses ↔ ∃ d, p.var v = .ok d ∧
      Model.varUses ((p.model.methods[d.method.index]?.map (·.stmts d.method)).getD []) v =
        uses := by
    unfold Program.varUses Program.var
    rw [hp.eq_index.2]
    simp only [orUnknown_eq_ok, getElem?_uses_index, Option.map_eq_some_iff]
    rfl
  rw [key]
  constructor
  · rintro ⟨d, hd, rfl⟩
    obtain ⟨method, hm⟩ := exists_method_of_declares hp ⟨d, hd, rfl⟩
    obtain ⟨e, he, rfl⟩ := (method_eq_ok hp).1 hm
    refine ⟨d.method, _, ⟨d, hd, rfl⟩, hm, ?_⟩
    rw [he]
    rfl
  · rintro ⟨m, method, ⟨d, hd, rfl⟩, hm, rfl⟩
    obtain ⟨e, he, rfl⟩ := (method_eq_ok hp).1 hm
    refine ⟨d, hd, ?_⟩
    rw [he]
    rfl

theorem exists_varUses {m : MethodId} {v : VarId} (h : p.Declares m v) :
    ∃ uses, p.varUses v = .ok uses := by
  obtain ⟨method, hm⟩ := exists_method_of_declares hp h
  exact ⟨_, (varUses_eq_ok hp).2 ⟨m, method, h, hm, rfl⟩⟩

/-! ## Types and calls -/

omit hp in
theorem lt_of_classViolations {c : ClassId} (h : p.model.classViolations c = []) :
    c.index < p.model.classes.size := by
  unfold Model.classViolations at h
  by_cases hc : c.index < p.model.classes.size
  · exact hc
  · simp [hc] at h

theorem class_lt_of_alloc {site : StmtId} {lhs : VarId} {ty : Ty}
    (h : p.stmt site = .ok (.alloc lhs ty)) {c : ClassId} (hc : ty.class? = some c) :
    c.index < p.model.classes.size := by
  obtain ⟨d, hs⟩ := stmtViolations_eq_nil hp h
  simp only [Model.stmtViolations, List.append_eq_nil_iff] at hs
  cases ty <;> simp only [Ty.class?, Option.some.injEq, reduceCtorEq] at hc
  subst hc
  exact lt_of_classViolations hs.2

omit hp in
theorem field_lt_of_accessViolations {site : StmtId} {access : FieldAccess}
    (h : p.model.accessViolations site access = []) :
    access.field.index < p.model.fields.size := by
  unfold Model.accessViolations at h
  split at h
  · cases h
  · next hfield => exact (Array.getElem?_eq_some_iff.1 hfield).1

theorem field_lt_of_load {site : StmtId} {lhs : VarId} {access : FieldAccess}
    (h : p.stmt site = .ok (.loadField lhs access)) :
    access.field.index < p.model.fields.size := by
  obtain ⟨d, hs⟩ := stmtViolations_eq_nil hp h
  simp only [Model.stmtViolations, List.append_eq_nil_iff] at hs
  exact field_lt_of_accessViolations hs.2

theorem field_lt_of_store {site : StmtId} {access : FieldAccess} {rhs : VarId}
    (h : p.stmt site = .ok (.storeField access rhs)) :
    access.field.index < p.model.fields.size := by
  obtain ⟨d, hs⟩ := stmtViolations_eq_nil hp h
  simp only [Model.stmtViolations, List.append_eq_nil_iff] at hs
  exact field_lt_of_accessViolations hs.2

theorem owner_lt_of_invoke {site : StmtId} {call : Invoke} (h : p.stmt site = .ok (.invoke call)) :
    call.target.owner.index < p.model.classes.size := by
  obtain ⟨d, hs⟩ := stmtViolations_eq_nil hp h
  simp only [Model.stmtViolations, List.append_eq_nil_iff] at hs
  exact lt_of_classViolations hs.2.1.1

theorem receiver_of_static {site : StmtId} {call : Invoke} (h : p.stmt site = .ok (.invoke call))
    (hk : call.kind = .static) :
    call.receiver = none ∧
      ∃ m, p.model.declared? call.target.owner call.target.subsignature = some m := by
  obtain ⟨d, hs⟩ := stmtViolations_eq_nil hp h
  simp only [Model.stmtViolations, List.append_eq_nil_iff, Model.receiverViolations, hk] at hs
  cases hr : call.receiver with
  | some v => simp [hr] at hs
  | none =>
    refine ⟨rfl, ?_⟩
    cases hd : p.model.declared? call.target.owner call.target.subsignature with
    | none => simp [hr, hd] at hs
    | some m => exact ⟨m, rfl⟩

/-! ## Resolving calls -/

omit hp in
theorem lookup_filterMap {entries : List (MethodId × MethodDecl)} {c : ClassId} {sub : String} :
    (entries.filterMap fun (id, e) =>
      if e.owner = c then some (e.subsignature, id) else none).lookup sub =
      (entries.find? fun e => e.2.owner = c && e.2.subsignature == sub).map (·.1) := by
  induction entries with
  | nil => rfl
  | cons e entries ih =>
    obtain ⟨id, d⟩ := e
    by_cases ho : d.owner = c
    · by_cases hs : d.subsignature = sub
      · simp [ho, hs]
      · have hs' : (sub == d.subsignature) = false := by simpa using Ne.symm hs
        simpa [ho, hs, List.lookup_cons, hs'] using ih
    · simpa [ho] using ih

/-- A class of the program has an entry, which lists the methods that the class declares. -/
theorem exists_classEntry {c : ClassId} (hc : c.index < p.model.classes.size) :
    ∃ e, p.hierarchy.entry c = .ok e ∧
      ∀ sub, e.declared.lookup sub = p.model.declared? c sub := by
  have hentry : ∃ e, p.hierarchy.entry c = .ok e ∧
      e.declared = p.model.methodEntries.filterMap fun (id, e) =>
        if e.owner = c then some (e.subsignature, id) else none := by
    rw [hp.eq_index.2]
    simp only [Hierarchy.entry, orUnknown_eq_ok, index, Hierarchy.ofModel, List.getElem?_toArray,
      List.getElem?_map, Model.classEntries, Model.classIds, getElem?_range_zip, Option.map_map,
      Option.map_eq_some_iff, Array.getElem?_eq_getElem hc]
    exact ⟨_, ⟨_, rfl, rfl⟩, rfl⟩
  obtain ⟨e, he, hd⟩ := hentry
  refine ⟨e, he, fun sub => ?_⟩
  rw [hd, lookup_filterMap]
  rfl

theorem method_of_declared? {c : ClassId} {sub : String} {m : MethodId}
    (h : p.model.declared? c sub = some m) : ∃ method, p.method m = .ok method := by
  obtain ⟨e, he, rfl⟩ := Option.map_eq_some_iff.1 h
  exact ⟨_, (method_eq_ok hp).2 ⟨_, Model.mem_methodEntries.1 (List.mem_of_find?_eq_some he), rfl⟩⟩

omit hp in
theorem entry_eq_ok {c : ClassId} {e : ClassEntry} :
    p.hierarchy.entry c = .ok e ↔ p.hierarchy.classes[c.index]? = some e := orUnknown_eq_ok

theorem class_lt_of_entry {c : ClassId} {e : ClassEntry} (h : p.hierarchy.entry c = .ok e) :
    c.index < p.model.classes.size := by
  rw [entry_eq_ok, hp.eq_index.2] at h
  simp only [index, Hierarchy.ofModel, List.getElem?_toArray, List.getElem?_map,
    Model.classEntries, Model.classIds, getElem?_range_zip, Option.map_map,
    Option.map_eq_some_iff] at h
  obtain ⟨d, hd, -⟩ := h
  exact (Array.getElem?_eq_some_iff.1 hd).1

/-- What a class has under a subsignature, some class declares under it. -/
theorem exists_declared?_of_dispatch {c : ClassId} {sub : String} {m : MethodId}
    (h : p.hierarchy.dispatch c sub = .ok (some m)) :
    ∃ owner, p.model.declared? owner sub = some m := by
  simp only [Hierarchy.dispatch, bind_eq_ok, pure_eq_ok] at h
  obtain ⟨e, he, hf⟩ := h
  obtain ⟨c', -, hc'⟩ := List.exists_of_findSome?_eq_some hf
  obtain ⟨hb, -⟩ := Option.filter_eq_some_iff.1 hc'
  obtain ⟨e', he', hl⟩ := Option.bind_eq_some_iff.1 hb
  obtain ⟨e'', he'', hd⟩ := exists_classEntry hp (class_lt_of_entry hp (entry_eq_ok.2 he'))
  rw [entry_eq_ok, he'] at he''
  cases he''
  exact ⟨c', hd sub ▸ hl⟩

theorem declared_eq_ok {c : ClassId} {sub : String} {found : Option MethodId}
    (h : p.hierarchy.declared c sub = .ok found) : p.model.declared? c sub = found := by
  simp only [Hierarchy.declared, bind_eq_ok, pure_eq_ok] at h
  obtain ⟨e, he, hl⟩ := h
  obtain ⟨e', he', hd⟩ := exists_classEntry hp (class_lt_of_entry hp he)
  rw [he] at he'
  cases he'
  rw [← hd, hl]

/-- A call finds a method that some class declares under the subsignature named in the call. -/
theorem exists_declared?_of_callee {receiver : Option ClassId} {call : Invoke} {m : MethodId}
    (h : p.hierarchy.callee receiver call = .ok (some m)) :
    ∃ owner, p.model.declared? owner call.target.subsignature = some m := by
  unfold Hierarchy.callee at h
  split at h
  · exact ⟨_, declared_eq_ok hp h⟩
  · exact exists_declared?_of_dispatch hp h
  · exact exists_declared?_of_dispatch hp h
  · exact exists_declared?_of_dispatch hp h
  · cases h
  · cases h

theorem method_of_callee {receiver : Option ClassId} {call : Invoke} {m : MethodId}
    (h : p.hierarchy.callee receiver call = .ok (some m)) : ∃ method, p.method m = .ok method := by
  obtain ⟨owner, hm⟩ := exists_declared?_of_callee hp h
  exact method_of_declared? hp hm

theorem dispatch_total {c : ClassId} (hc : c.index < p.model.classes.size) (sub : String) :
    ∃ found, p.hierarchy.dispatch c sub = .ok found := by
  obtain ⟨e, he, -⟩ := exists_classEntry hp hc
  exact ⟨_, bind_eq_ok.2 ⟨e, he, rfl⟩⟩

/-- A static call finds the method that it names, and nothing but the call decides which. -/
theorem callee_of_static {site : StmtId} {call : Invoke} (h : p.stmt site = .ok (.invoke call))
    (hk : call.kind = .static) : ∃ m, p.hierarchy.callee none call = .ok (some m) := by
  obtain ⟨-, m, hm⟩ := receiver_of_static hp h hk
  obtain ⟨e, he, hd⟩ := exists_classEntry hp (owner_lt_of_invoke hp h)
  refine ⟨m, ?_⟩
  simp only [Hierarchy.callee, hk, Hierarchy.declared, bind_eq_ok, pure_eq_ok]
  exact ⟨e, he, by rw [hd, hm]⟩

/-- Resolving a call never fails when the class of the receiver is one of the program. -/
theorem callee_total {site : StmtId} {call : Invoke} (h : p.stmt site = .ok (.invoke call))
    {receiver : Option ClassId} (hr : ∀ c, receiver = some c → c.index < p.model.classes.size) :
    ∃ found, p.hierarchy.callee receiver call = .ok found := by
  have howner := owner_lt_of_invoke hp h
  unfold Hierarchy.callee
  split
  · obtain ⟨e, he, -⟩ := exists_classEntry hp howner
    exact ⟨_, bind_eq_ok.2 ⟨e, he, rfl⟩⟩
  · exact dispatch_total hp howner _
  · exact dispatch_total hp (hr _ rfl) _
  · exact dispatch_total hp (hr _ rfl) _
  · exact ⟨none, rfl⟩
  · exact ⟨none, rfl⟩

end

end Program

end ObjectFlow
