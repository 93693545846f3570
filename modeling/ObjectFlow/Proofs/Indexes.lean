import ObjectFlow.Proofs.CallClosure
import ObjectFlow.Proofs.Checking
import ObjectFlow.Proofs.Passages

/-!
# The indexes of a program are exact

An analysis does not search the bodies of methods. It asks the indexes of the program for the
statements that go through a variable, for the calls and returned variables of a method, and for the
variables that a method declares. Nothing is missing from these lists and nothing is in them that
should not be, and they follow the order of the program (`Program.ListsUses`, `Program.ListsParts`).

The lists are those that the pass over the model has filled, statement by statement, while it was
checking the model. The statements that go through a variable stand in the method that declares it,
since the program has been accepted. So it is enough to look for them there.
-/

namespace ObjectFlow

/-! ## The order of first occurrence -/

section

variable {α β : Type} [Keyed α] {f : β → Option α} {key : β → Nat} {xs : List β}

/-- A value is read off some member of a list, and another value only off members behind it. -/
def ReadBefore (f : β → Option α) (key : β → Nat) (xs : List β) (a b : α) : Prop :=
  ∃ x ∈ xs, f x = some a ∧ ∀ y ∈ xs, f y = some b → key x < key y

omit [Keyed α] in
theorem ReadBefore.concat {z : β} {a b : α} (h : ReadBefore f key xs a b)
    (hlast : ∀ x ∈ xs, key x < key z) : ReadBefore f key (xs ++ [z]) a b := by
  obtain ⟨x, hx, hxa, hxb⟩ := h
  refine ⟨x, List.mem_append_left _ hx, hxa, fun y hy hyb => ?_⟩
  rcases List.mem_append.1 hy with hy | hy
  · exact hxb y hy hyb
  · obtain rfl := List.mem_singleton.1 hy
    exact hlast x hx

/-- A roster of values that are read off a list has them in the order of their first occurrence. -/
theorem Roster.pairwise_ofList_filterMap (h : xs.Pairwise (key · < key ·)) :
    (ofList (xs.filterMap f)).toList.Pairwise (ReadBefore f key xs) := by
  induction xs using List.reverseRecOn with
  | nil => exact .nil
  | append_singleton xs z ih =>
    obtain ⟨hxs, -, hlast⟩ := List.pairwise_append.1 h
    have hlast : ∀ x ∈ xs, key x < key z := fun x hx => hlast x hx z (List.mem_singleton_self z)
    have hold : (ofList (xs.filterMap f)).toList.Pairwise (ReadBefore f key (xs ++ [z])) :=
      (ih hxs).imp fun hab => hab.concat hlast
    rw [List.filterMap_append]
    cases hz : f z with
    | none => simpa [hz] using hold
    | some c =>
      rw [List.filterMap_cons_some hz, List.filterMap_nil, ofList_concat, toList_insert]
      split
      · exact hold
      · next hnew =>
        -- A new value stands behind all others, and is read off the new member alone.
        refine List.pairwise_append.2 ⟨hold, List.pairwise_singleton _ c, fun a ha b hb => ?_⟩
        obtain rfl := List.mem_singleton.1 hb
        obtain ⟨x, hx, hxa⟩ := List.mem_filterMap.1 (mem_ofList.1 ha)
        refine ⟨x, List.mem_append_left _ hx, hxa, fun y hy hyb => ?_⟩
        rcases List.mem_append.1 hy with hy | hy
        · exact absurd (contains_iff.2 (mem_ofList.2 (List.mem_filterMap.2 ⟨y, hy, hyb⟩))) hnew
        · obtain rfl := List.mem_singleton.1 hy
          exact hlast x hx

end

namespace Program

variable {p : Program}

/-! ## What goes through a variable -/

/-- A statement goes through the objects of a variable in a certain way: it accesses a field of
instances or an array with the variable as its base, or makes a call that is not static with the
variable as its receiver. -/
inductive Accesses (p : Program) (v : VarId) : Access → Stmt → Prop
  | storeField {f : FieldId} {rhs : VarId} {d : FieldDecl} :
      p.model.fields[f.index]? = some d → d.isStatic = false →
      Accesses p v .storeField (.storeField ⟨some v, f⟩ rhs)
  | loadField {lhs : VarId} {f : FieldId} {d : FieldDecl} :
      p.model.fields[f.index]? = some d → d.isStatic = false →
      Accesses p v .loadField (.loadField lhs ⟨some v, f⟩)
  | storeArray {index rhs : VarId} : Accesses p v .storeArray (.storeArray v index rhs)
  | loadArray {lhs index : VarId} : Accesses p v .loadArray (.loadArray lhs v index)
  | invoke {call : Invoke} : call.kind ≠ .static → call.receiver = some v →
      Accesses p v .invoke (.invoke call)

/-- A field that is accessed through an object belongs to instances. -/
theorem exists_instanceField {access : FieldAccess} {v : VarId}
    (h : p.model.FormedAccess access) (hbase : access.base = some v) :
    ∃ d, p.model.fields[access.field.index]? = some d ∧ d.isStatic = false := by
  obtain ⟨d, hd, hiff⟩ := h
  exact ⟨d, hd, hiff.1 (by rw [hbase]; rfl)⟩

/-- What the index asks of a statement is enough, since the statement has passed its check. -/
theorem accesses_iff (hp : p.Accepted) {site : StmtId} {s : Stmt} (hst : p.stmt site = .ok s)
    {v : VarId} {way : Access} :
    Accesses p v way s ↔ s.access? = some way ∧ s.through = some v := by
  obtain ⟨method, hm, -⟩ := stmt_eq_ok.1 hst
  have hformed := formedStmt hp hm hst
  constructor
  · intro h
    cases h with
    | invoke _ hreceiver => exact ⟨rfl, hreceiver⟩
    | _ => exact ⟨rfl, rfl⟩
  · rintro ⟨haccess, hthrough⟩
    cases s with
    | storeField access rhs =>
      obtain ⟨d, hd, hstatic⟩ := exists_instanceField hformed hthrough
      obtain ⟨base, f⟩ := access
      cases haccess
      cases hthrough
      exact .storeField hd hstatic
    | loadField lhs access =>
      obtain ⟨d, hd, hstatic⟩ := exists_instanceField hformed hthrough
      obtain ⟨base, f⟩ := access
      cases haccess
      cases hthrough
      exact .loadField hd hstatic
    | storeArray base index rhs =>
      cases haccess
      cases hthrough
      exact .storeArray
    | loadArray lhs base index =>
      cases haccess
      cases hthrough
      exact .loadArray
    | invoke call =>
      cases haccess
      exact .invoke (hformed.receiver.1 (by rw [show call.receiver = some v from hthrough]; rfl))
        hthrough
    | _ => cases haccess

theorem mem_sites_iff (hp : p.Accepted) {v : VarId} {uses : VarUses}
    (hu : p.varUses v = .ok uses) {way : Access} {site : StmtId} :
    site ∈ uses.sites way ↔ ∃ s, p.stmt site = .ok s ∧ Accesses p v way s := by
  obtain ⟨m, method, hv, hm, rfl⟩ := (varUses_eq_ok hp).1 hu
  rw [Model.sites_varUses, mem_sitesWhere hp hv hm fun s hs =>
    Stmt.mem_used_of_through (of_decide_eq_true hs).2]
  refine exists_congr fun s => and_congr_right fun hst => ?_
  rw [accesses_iff hp hst, decide_eq_true_iff]

theorem sites_ascending (hp : p.Accepted) {v : VarId} {uses : VarUses}
    (hu : p.varUses v = .ok uses) (way : Access) :
    (uses.sites way).Pairwise (·.index < ·.index) := by
  obtain ⟨m, method, -, hm, rfl⟩ := (varUses_eq_ok hp).1 hu
  obtain ⟨d, -, rfl⟩ := (method_eq_ok hp).1 hm
  rw [Model.sites_varUses]
  exact Model.sitesWhere_ascending d m _

/-! ## What belongs to a method -/

theorem varEntries_ascending : p.model.varEntries.Pairwise fun e e' => e.1.index < e'.1.index := by
  have h := Id.range_ascending .vars p.model.vars.size
  rwa [← Id.map_fst_range_zip p.model.vars, List.pairwise_map] at h

theorem mem_varIds {v : VarId} : v ∈ p.model.varIds ↔ ∃ m, p.Declares m v := by
  rw [Model.varIds, Id.mem_range]
  constructor
  · exact fun h => ⟨_, _, orUnknown_eq_ok.2 (Array.getElem?_eq_getElem h), rfl⟩
  · rintro ⟨m, d, hd, -⟩
    exact (Array.getElem?_eq_some_iff.1 (orUnknown_eq_ok.1 hd)).1

section

variable (hp : p.Accepted) {m : MethodId} {method : Method} (hm : p.method m = .ok method)
include hp hm

/-- The returned variables are in the order in which they are first returned. -/
theorem returnVars_ordered : method.returnVars.Pairwise fun v w =>
    ∃ i, p.stmt ⟨m, i⟩ = .ok (.ret (some v)) ∧
      ∀ j, p.stmt ⟨m, j⟩ = .ok (.ret (some w)) → i < j := by
  have hstmts {site s} : (site, s) ∈ method.stmts ↔ site.method = m ∧ p.stmt site = .ok s :=
    mem_stmts hp hm
  obtain ⟨d, -, rfl⟩ := (method_eq_ok hp).1 hm
  refine (Roster.pairwise_ofList_filterMap (Model.stmts_ascending d m)).imp ?_
  rintro v w ⟨⟨site, s⟩, hs, hv, hw⟩
  obtain ⟨rfl, hst⟩ := hstmts.1 hs
  dsimp only at hv
  split at hv
  · next heq =>
    cases heq
    rw [hv] at hst
    exact ⟨site.index, hst, fun j hj => hw (⟨_, j⟩, _) (hstmts.2 ⟨rfl, hj⟩) rfl⟩
  · cases hv

theorem mem_vars_iff {v : VarId} : v ∈ method.vars ↔ p.Declares m v := by
  obtain ⟨d, -, rfl⟩ := (method_eq_ok hp).1 hm
  simp only [Model.indexedMethod, List.mem_filterMap, Prod.exists, Option.ite_none_right_eq_some,
    Option.some.injEq]
  constructor
  · rintro ⟨w, e, he, hmethod, rfl⟩
    exact ⟨e, orUnknown_eq_ok.2 (mem_range_zip.1 he), hmethod⟩
  · rintro ⟨e, he, hmethod⟩
    exact ⟨v, e, mem_range_zip.2 (orUnknown_eq_ok.1 he), hmethod, rfl⟩

theorem vars_ascending : method.vars.Pairwise (·.index < ·.index) := by
  obtain ⟨d, -, rfl⟩ := (method_eq_ok hp).1 hm
  refine List.pairwise_filterMap.2 (varEntries_ascending.imp ?_)
  rintro ⟨v, e⟩ ⟨w, e'⟩ hlt v' hv w' hw
  obtain ⟨-, hv⟩ := Option.ite_none_right_eq_some.1 hv
  obtain ⟨-, hw⟩ := Option.ite_none_right_eq_some.1 hw
  cases hv
  cases hw
  exact hlt

end

/-- Every variable is listed by one method, and once. -/
theorem vars_perm (hp : p.Accepted) :
    (p.methods.toList.flatMap (·.vars)).Perm p.model.varIds := by
  have hmethod {i : Nat} {method : Method} (h : p.methods.toList[i]? = some method) :
      p.method ⟨i⟩ = .ok method := orUnknown_eq_ok.2 (Array.getElem?_toList ▸ h)
  have hmem {v : VarId} : v ∈ p.methods.toList.flatMap (·.vars) ↔ v ∈ p.model.varIds := by
    rw [List.mem_flatMap, mem_varIds]
    constructor
    · rintro ⟨method, hin, hv⟩
      obtain ⟨i, hi⟩ := List.mem_iff_getElem?.1 hin
      exact ⟨⟨i⟩, (mem_vars_iff hp (hmethod hi)).1 hv⟩
    · rintro ⟨m, hv⟩
      obtain ⟨method, hm⟩ := exists_method_of_declares hp hv
      have hin : p.methods.toList[m.index]? = some method :=
        Array.getElem?_toList ▸ orUnknown_eq_ok.1 hm
      exact ⟨method, List.mem_of_getElem? hin, (mem_vars_iff hp hm).2 hv⟩
  have hnodup : (p.methods.toList.flatMap (·.vars)).Nodup := by
    refine List.nodup_flatMap.2 ⟨fun method hin => ?_, List.pairwise_iff_getElem.2 ?_⟩
    · obtain ⟨i, hi⟩ := List.mem_iff_getElem?.1 hin
      exact Id.nodup_of_ascending (vars_ascending hp (hmethod hi))
    · intro i j hi hj hlt v hv hv'
      -- A variable has one declaring method, and two places of the table are two methods.
      have hv := (mem_vars_iff hp (hmethod (List.getElem?_eq_getElem hi))).1 hv
      have hv' := (mem_vars_iff hp (hmethod (List.getElem?_eq_getElem hj))).1 hv'
      exact hlt.ne (congrArg Id.index (hv.inj hv'))
  have hids : p.model.varIds.Nodup := Id.nodup_of_ascending (Id.range_ascending .vars _)
  exact (List.perm_ext_iff_of_nodup hnodup hids).2 fun v => hmem

/-! ## The indexes -/

/-- The uses of a variable are what goes through it, in the order of the statements. -/
structure ListsUses (p : Program) (v : VarId) (uses : VarUses) : Prop where
  mem : ∀ {way site}, site ∈ uses.sites way ↔ ∃ s, p.stmt site = .ok s ∧ Accesses p v way s
  ascending : ∀ way, (uses.sites way).Pairwise (·.index < ·.index)
  nodup : ∀ way, (uses.sites way).Nodup
  inside : ∀ {way site}, site ∈ uses.sites way → p.Declares site.method v

/-- The parts of a method are its calls, in the order of the statements, the variables that it
returns, in the order in which they are first returned, and the variables that it declares. -/
structure ListsParts (p : Program) (m : MethodId) (method : Method) : Prop where
  mem_callSites : ∀ {site},
    site ∈ method.callSites ↔ site.method = m ∧ ∃ call, p.stmt site = .ok (.invoke call)
  callSites_ascending : method.callSites.Pairwise (·.index < ·.index)
  mem_returnVars : ∀ {v}, v ∈ method.returnVars ↔ ∃ i, p.stmt ⟨m, i⟩ = .ok (.ret (some v))
  returnVars_nodup : method.returnVars.Nodup
  returnVars_ordered : method.returnVars.Pairwise fun v w =>
    ∃ i, p.stmt ⟨m, i⟩ = .ok (.ret (some v)) ∧ ∀ j, p.stmt ⟨m, j⟩ = .ok (.ret (some w)) → i < j
  mem_vars : ∀ {v}, v ∈ method.vars ↔ p.Declares m v
  vars_ascending : method.vars.Pairwise (·.index < ·.index)

theorem check_of_accepted (hp : p.Accepted) : p.model.check = .ok p := by
  rw [Model.check_eq, hp.eq_index.1, ← hp.eq_index.2]
  rfl

theorem listsUses (hp : p.Accepted) {v : VarId} {uses : VarUses} (hu : p.varUses v = .ok uses) :
    ListsUses p v uses where
  mem := mem_sites_iff hp hu
  ascending := sites_ascending hp hu
  nodup way := (sites_ascending hp hu way).imp fun hlt heq =>
    hlt.ne (congrArg StmtId.index heq)
  inside hsite := by
    obtain ⟨s, hst, haccess⟩ := (mem_sites_iff hp hu).1 hsite
    have hthrough := ((accesses_iff hp hst).1 haccess).2
    exact declares_of_stmt hp hst (List.mem_append_right _ (Stmt.mem_used_of_through hthrough))

theorem listsParts (hp : p.Accepted) {m : MethodId} {method : Method}
    (hm : p.method m = .ok method) : ListsParts p m method where
  mem_callSites := mem_callSites hp hm
  callSites_ascending := callSites_ascending hp hm
  mem_returnVars := by
    intro v
    rw [mem_returnVars hp hm]
    constructor
    · rintro ⟨site, rfl, hst⟩
      exact ⟨site.index, hst⟩
    · rintro ⟨i, hst⟩
      exact ⟨⟨m, i⟩, rfl, hst⟩
  returnVars_nodup := (returnVars_ordered hp hm).imp fun {v w} hbefore heq => by
    obtain ⟨i, hi, hafter⟩ := hbefore
    exact (hafter i (heq ▸ hi)).false
  returnVars_ordered := returnVars_ordered hp hm
  mem_vars := mem_vars_iff hp hm
  vars_ascending := vars_ascending hp hm

/-- The program that the pass over its model has filled in lists the uses of every variable and the
parts of every method as they should be, and the variables are shared out among the methods. -/
theorem indexes_exact (hp : p.Accepted) :
    p.model.check = .ok p ∧
    (∀ v ∈ p.model.varIds, ∃ uses, p.varUses v = .ok uses ∧ ListsUses p v uses) ∧
    (∀ m ∈ p.methodIds, ∃ method, p.method m = .ok method ∧ ListsParts p m method) ∧
    (p.methods.toList.flatMap (·.vars)).Perm p.model.varIds := by
  refine ⟨check_of_accepted hp, fun v hv => ?_, fun m hm => ?_, vars_perm hp⟩
  · obtain ⟨m, hdeclares⟩ := mem_varIds.1 hv
    obtain ⟨uses, hu⟩ := exists_varUses hp hdeclares
    exact ⟨uses, hu, listsUses hp hu⟩
  · obtain ⟨method, hmethod⟩ := (mem_methodIds hp).1 hm
    exact ⟨method, hmethod, listsParts hp hmethod⟩

/-- The body of `pick` goes through its array twice and returns three times but two variables. Its
variables stand among those of `main`, which goes through one variable in three ways and also
accesses a static field, through no variable. -/
def picking : Model where
  classes := #[{ name := "Node" }]
  fields := #[
    { owner := ⟨0⟩, name := "next", ty := .ref ⟨0⟩ },
    { owner := ⟨0⟩, name := "root", ty := .ref ⟨0⟩, isStatic := true }]
  methods := #[
    { owner := ⟨0⟩, name := "main", subsignature := "void main()", isStatic := true,
      returnType := .void,
      body := #[.loadField ⟨0⟩ ⟨none, ⟨1⟩⟩, .loadField ⟨2⟩ ⟨some ⟨0⟩, ⟨0⟩⟩,
        .storeField ⟨some ⟨0⟩, ⟨0⟩⟩ ⟨2⟩, .loadField ⟨0⟩ ⟨some ⟨0⟩, ⟨0⟩⟩,
        .invoke ⟨.virtual, some ⟨2⟩, some ⟨0⟩, ⟨⟨0⟩, "Node pick(Node[],int)"⟩, [⟨4⟩, ⟨7⟩]⟩] },
    { owner := ⟨0⟩, name := "pick", subsignature := "Node pick(Node[],int)",
      params := [⟨1⟩, ⟨6⟩], this := some ⟨3⟩, returnType := .ref ⟨0⟩,
      body := #[.loadArray ⟨5⟩ ⟨1⟩ ⟨6⟩, .storeArray ⟨1⟩ ⟨6⟩ ⟨3⟩, .branch .eq ⟨6⟩ ⟨6⟩ 4,
        .ret (some ⟨5⟩), .branch .ne ⟨6⟩ ⟨6⟩ 6, .ret (some ⟨3⟩), .ret (some ⟨5⟩)] }]
  vars := #[⟨⟨0⟩, "n", .ref ⟨0⟩⟩, ⟨⟨1⟩, "all", .array (.ref ⟨0⟩)⟩, ⟨⟨0⟩, "m", .ref ⟨0⟩⟩,
    ⟨⟨1⟩, "this", .ref ⟨0⟩⟩, ⟨⟨0⟩, "some", .array (.ref ⟨0⟩)⟩, ⟨⟨1⟩, "found", .ref ⟨0⟩⟩,
    ⟨⟨1⟩, "i", .int⟩, ⟨⟨0⟩, "k", .int⟩]
  entry := ⟨0⟩

theorem picking_accepted : (index picking).Accepted := by
  have h : picking.violations = [] := by decide +kernel
  exact ⟨picking, by rw [ofModel, h]⟩

/-- Two of the four field accesses of `picking` are loads through one variable, and one of the two
returned variables is returned twice. -/
theorem picking_indexes :
    picking.check = .ok (index picking) ∧
    (∃ uses, (index picking).varUses ⟨0⟩ = .ok uses ∧
      uses = ⟨[⟨⟨0⟩, 2⟩], [⟨⟨0⟩, 1⟩, ⟨⟨0⟩, 3⟩], [], [], [⟨⟨0⟩, 4⟩]⟩ ∧
      ListsUses (index picking) ⟨0⟩ uses) ∧
    (∃ method, (index picking).method ⟨1⟩ = .ok method ∧ method.returnVars = [⟨5⟩, ⟨3⟩] ∧
      method.vars = [⟨1⟩, ⟨3⟩, ⟨5⟩, ⟨6⟩] ∧ ListsParts (index picking) ⟨1⟩ method) ∧
    ((index picking).methods.toList.flatMap (·.vars)).Perm picking.varIds := by
  obtain ⟨hcheck, huses, hparts, hperm⟩ := indexes_exact picking_accepted
  obtain ⟨uses, hu, hlists⟩ := huses ⟨0⟩ (by decide)
  obtain ⟨method, hm, hlistsParts⟩ := hparts ⟨1⟩ (by decide)
  obtain ⟨uses', hu', htest⟩ := exists_ok_of_any ((index picking).varUses ⟨0⟩)
    (fun uses => decide (uses = ⟨[⟨⟨0⟩, 2⟩], [⟨⟨0⟩, 1⟩, ⟨⟨0⟩, 3⟩], [], [], [⟨⟨0⟩, 4⟩]⟩))
    (by decide +kernel)
  obtain ⟨method', hm', htestParts⟩ := exists_ok_of_any ((index picking).method ⟨1⟩)
    (fun method => decide (method.returnVars = [⟨5⟩, ⟨3⟩] ∧ method.vars = [⟨1⟩, ⟨3⟩, ⟨5⟩, ⟨6⟩]))
    (by decide +kernel)
  cases hu.symm.trans hu'
  cases hm.symm.trans hm'
  obtain ⟨hreturned, hvars⟩ := of_decide_eq_true htestParts
  exact ⟨hcheck, ⟨uses, hu, of_decide_eq_true htest, hlists⟩,
    ⟨method, hm, hreturned, hvars, hlistsParts⟩, hperm⟩

end Program

end ObjectFlow
