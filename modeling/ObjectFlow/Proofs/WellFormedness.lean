import Mathlib.Data.Fintype.Card
import ObjectFlow.Proofs.Accepted

/-!
# Well-formed models

What it means for a model to make sense, said without the check (`Model.WellFormed`): numbers name
entries of their tables, every chain of superclasses comes to an end, a class declares a
subsignature at most once, and each method is in order (`FormedMethod`). The check finds nothing
wrong with a model exactly if the model is well-formed (`violations_eq_nil_iff`).

Two parts of the check decide what they do only because other parts have passed. A chain is looked
at for as many classes as there are, which is enough because a chain that comes to an end has each
class at most once (`FormedTables.isSome_lineage?_iff`). For this, superclasses must be classes of
the table. A call looks at the first method with the subsignature, which is the only one once no
subsignature is declared twice (`DeclaredOnce.declared?_eq_some`).
-/

namespace ObjectFlow

namespace Model

variable {m : Model}

/-! ## Models that make sense -/

/-- The class in a type, if any, is declared. -/
def Names (m : Model) : Ty → Prop
  | .ref c => c.index < m.classes.size
  | .array element => m.Names element
  | _ => True

/-- The class that is a number of links above a class, if there is one. -/
def ancestor? (m : Model) : (links : Nat) → ClassId → Option ClassId
  | 0, c => some c
  | links + 1, c => (m.superclass? c).bind (m.ancestor? links)

/-- A variable is declared, and by this method. -/
def HasVar (m : Model) (id : MethodId) (v : VarId) : Prop :=
  ∃ d, m.vars[v.index]? = some d ∧ d.method = id

/-- A method is what a class declares under a subsignature. -/
def DeclaredAs (d : MethodDecl) (target : MethodRef) : Prop :=
  d.owner = target.owner ∧ d.subsignature = target.subsignature

/-- No class declares a subsignature twice. -/
def DeclaredOnce (m : Model) : Prop :=
  ∀ {i j : MethodId} {d e : MethodDecl}, m.methods[i.index]? = some d →
    m.methods[j.index]? = some e → d.owner = e.owner → d.subsignature = e.subsignature → i = j

/-- A field is declared and accessed through an object exactly if it belongs to one. -/
def FormedAccess (m : Model) (access : FieldAccess) : Prop :=
  ∃ d, m.fields[access.field.index]? = some d ∧ (access.base.isSome = true ↔ d.isStatic = false)

/-- A call names a class, has a receiver unless it is static, finds a body if it is static, and
passes as many arguments as the method takes if the class declares it. -/
structure FormedCall (m : Model) (call : Invoke) : Prop where
  owner : call.target.owner.index < m.classes.size
  receiver : call.receiver.isSome = true ↔ call.kind ≠ .static
  body : call.kind = .static → ∃ d ∈ m.methods, DeclaredAs d call.target ∧ d.isAbstract = false
  arity : ∀ d ∈ m.methods, DeclaredAs d call.target → call.args.length = d.params.length

/-- What is particular to the form of a statement is in order. -/
def FormedStmt (m : Model) (d : MethodDecl) : Stmt → Prop
  | .alloc _ ty | .cast _ _ ty => m.Names ty
  | .loadField _ access | .storeField access _ => m.FormedAccess access
  | .invoke call => m.FormedCall call
  | .branch op _ _ target => op.isComparison = true ∧ target < d.body.size
  | .switch _ cases default => default < d.body.size ∧ ∀ c ∈ cases, c.2 < d.body.size
  | .goto target => target < d.body.size
  | _ => True

structure FormedMethod (m : Model) (id : MethodId) (d : MethodDecl) : Prop where
  body : d.isAbstract = true → d.body = #[]
  this : d.isStatic = false → d.isAbstract = false → d.this.isSome = true
  params : ∀ v ∈ d.params ++ d.this.toList, m.HasVar id v
  vars : ∀ s ∈ d.body, ∀ v ∈ s.defined.toList ++ s.used, m.HasVar id v
  stmts : ∀ s ∈ d.body, m.FormedStmt d s

/-- Numbers that stand in the tables name entries of the tables. -/
structure FormedTables (m : Model) : Prop where
  superclasses : ∀ d ∈ m.classes, ∀ c ∈ d.superclass, c.index < m.classes.size
  interfaces : ∀ d ∈ m.classes, ∀ c ∈ d.interfaces, c.index < m.classes.size
  fields : ∀ d ∈ m.fields, d.owner.index < m.classes.size ∧ m.Names d.ty
  vars : ∀ d ∈ m.vars, d.method.index < m.methods.size ∧ m.Names d.ty
  owners : ∀ d ∈ m.methods, d.owner.index < m.classes.size
  entry : m.entry.index < m.methods.size

/-- A model that makes sense. -/
structure WellFormed (m : Model) : Prop where
  tables : m.FormedTables
  chains : ∀ c : ClassId, c.index < m.classes.size → ∃ links, m.ancestor? links c = none
  declaredOnce : m.DeclaredOnce
  methods : ∀ {id : MethodId} {d}, m.methods[id.index]? = some d → m.FormedMethod id d
  entry : ∀ d, m.methods[m.entry.index]? = some d → d.isStatic = true ∧ d.isAbstract = false

/-! ## Tables -/

theorem ite_eq_nil_iff {α : Type} {P : Prop} [Decidable P] {e : α} :
    (if P then [] else [e]) = [] ↔ P := by
  split <;> simp_all

theorem classViolations_eq_nil_iff {c : ClassId} :
    m.classViolations c = [] ↔ c.index < m.classes.size := ite_eq_nil_iff

theorem tyViolations_eq_nil_iff {ty : Ty} : m.tyViolations ty = [] ↔ m.Names ty := by
  induction ty with
  | ref c => exact classViolations_eq_nil_iff
  | array element ih => exact ih
  | int | boolean | byte | short | char | long | float | double | null | void =>
    exact iff_of_true rfl trivial

theorem tableViolations_eq_nil_iff : m.tableViolations = [] ↔ m.FormedTables := by
  simp only [tableViolations, List.append_eq_nil_iff, List.flatMap_eq_nil_iff, ite_eq_nil_iff,
    classViolations_eq_nil_iff, tyViolations_eq_nil_iff, Array.mem_toList_iff,
    Option.mem_toList]
  constructor
  · rintro ⟨⟨⟨⟨hclasses, hfields⟩, hvars⟩, howners⟩, hentry⟩
    exact ⟨fun d hd => (hclasses d hd).1, fun d hd => (hclasses d hd).2, hfields, hvars, howners,
      hentry⟩
  · rintro ⟨hsuper, hinterfaces, hfields, hvars, howners, hentry⟩
    exact ⟨⟨⟨⟨fun d hd => ⟨hsuper d hd, hinterfaces d hd⟩, hfields⟩, hvars⟩, howners⟩, hentry⟩

/-! ## Chains of superclasses -/

theorem superclass?_of_lt {c : ClassId} (hc : c.index < m.classes.size) :
    m.superclass? c = m.classes[c.index].superclass := by
  rw [superclass?, Array.getElem?_eq_getElem hc]
  rfl

theorem FormedTables.lt_of_superclass (ht : m.FormedTables) {c d : ClassId}
    (h : m.superclass? c = some d) : d.index < m.classes.size := by
  obtain ⟨decl, hdecl, hsuper⟩ := Option.bind_eq_some_iff.1 h
  exact ht.superclasses decl (Array.mem_of_getElem? hdecl) d hsuper

theorem ancestor?_add (i j : Nat) (c : ClassId) :
    m.ancestor? (i + j) c = (m.ancestor? i c).bind (m.ancestor? j) := by
  induction i generalizing c with
  | zero => rw [Nat.zero_add]; rfl
  | succ i ih =>
    rw [Nat.add_right_comm, ancestor?, ancestor?]
    cases m.superclass? c with
    | none => rfl
    | some d => exact ih d

theorem ancestor?_eq_none_of_le {i j : Nat} {c : ClassId} (hij : i ≤ j)
    (h : m.ancestor? i c = none) : m.ancestor? j c = none := by
  obtain ⟨k, rfl⟩ := Nat.exists_eq_add_of_le hij
  rw [ancestor?_add, h]
  rfl

theorem FormedTables.lt_of_ancestor? (ht : m.FormedTables) {i : Nat} {c d : ClassId}
    (hc : c.index < m.classes.size) (h : m.ancestor? i c = some d) :
    d.index < m.classes.size := by
  induction i generalizing c with
  | zero =>
    cases h
    exact hc
  | succ i ih =>
    obtain ⟨e, he, h⟩ := Option.bind_eq_some_iff.1 h
    exact ih (ht.lt_of_superclass he) h

/-- A class above itself is above itself again and again. -/
theorem ancestor?_mul {k : Nat} {c : ClassId} (h : m.ancestor? k c = some c) (times : Nat) :
    m.ancestor? (times * k) c = some c := by
  induction times with
  | zero => rw [Nat.zero_mul]; rfl
  | succ times ih =>
    rw [Nat.succ_mul, ancestor?_add, ih]
    exact h

/-- A chain that comes to an end has no class twice. -/
theorem ancestor?_injective {c d : ClassId} {i j : Nat} (hend : ∃ links, m.ancestor? links c = none)
    (hi : m.ancestor? i c = some d) (hj : m.ancestor? j c = some d) : i = j := by
  wlog hij : i < j generalizing i j
  · rcases Nat.lt_trichotomy i j with h | h | h
    · exact absurd h hij
    · exact h
    · exact (this hj hi h).symm
  exfalso
  obtain ⟨k, rfl⟩ := Nat.exists_eq_add_of_lt hij
  obtain ⟨links, hlinks⟩ := hend
  have hcycle : m.ancestor? (k + 1) d = some d := by
    rw [Nat.add_assoc, ancestor?_add, hi] at hj
    exact hj
  have hlate : m.ancestor? (i + links * (k + 1)) c = some d := by
    rw [ancestor?_add, hi]
    exact ancestor?_mul hcycle links
  have hle : links ≤ i + links * (k + 1) :=
    (Nat.le_mul_of_pos_right links k.succ_pos).trans (Nat.le_add_left _ _)
  rw [ancestor?_eq_none_of_le hle hlinks] at hlate
  cases hlate

/-- A chain that comes to an end does so after at most as many links as there are classes. -/
theorem FormedTables.ancestor?_size (ht : m.FormedTables) {c : ClassId}
    (hc : c.index < m.classes.size) (hend : ∃ links, m.ancestor? links c = none) :
    m.ancestor? m.classes.size c = none := by
  by_contra hsome
  -- Otherwise the chain has more places than there are classes.
  have hplace : ∀ i : Fin (m.classes.size + 1), ∃ d, m.ancestor? i c = some d := by
    intro i
    refine Option.ne_none_iff_exists'.1 fun hnone => hsome ?_
    exact ancestor?_eq_none_of_le (Nat.le_of_lt_succ i.isLt) hnone
  choose place hplace using hplace
  have hinj : Function.Injective fun i : Fin (m.classes.size + 1) =>
      (⟨(place i).index, ht.lt_of_ancestor? hc (hplace i)⟩ : Fin m.classes.size) := by
    intro i j hij
    have hsame : place i = place j := congrArg Id.mk (Fin.mk.inj hij)
    exact Fin.ext (ancestor?_injective hend (hplace i) (hsame ▸ hplace j))
  have hcard := Fintype.card_le_of_injective _ hinj
  simp only [Fintype.card_fin] at hcard
  omega

theorem isSome_lineage?_eq (bound : Nat) (c : ClassId) :
    (m.lineage? bound c).isSome = (m.ancestor? bound c).isNone := by
  induction bound generalizing c with
  | zero => rfl
  | succ bound ih =>
    unfold lineage? ancestor?
    cases m.superclass? c with
    | none => rfl
    | some d =>
      simp only [Option.isSome_map, Option.bind_some]
      exact ih d

/-- As many classes as there are tell whether a chain comes to an end. -/
theorem FormedTables.isSome_lineage?_iff (ht : m.FormedTables) {c : ClassId}
    (hc : c.index < m.classes.size) :
    (m.lineage? m.classes.size c).isSome = true ↔ ∃ links, m.ancestor? links c = none := by
  rw [isSome_lineage?_eq, Option.isNone_iff_eq_none]
  exact ⟨fun h => ⟨_, h⟩, ht.ancestor?_size hc⟩

theorem FormedTables.cycleViolations_eq_nil_iff (ht : m.FormedTables) :
    m.cycleViolations = [] ↔
      ∀ c : ClassId, c.index < m.classes.size → ∃ links, m.ancestor? links c = none := by
  simp only [cycleViolations, classIds, List.flatMap_eq_nil_iff, Id.mem_range, ite_eq_nil_iff]
  exact forall₂_congr fun c hc => ht.isSome_lineage?_iff hc

/-! ## Subsignatures -/

theorem exists_id_of_mem {d : MethodDecl} (hd : d ∈ m.methods) :
    ∃ id : MethodId, m.methods[id.index]? = some d := by
  obtain ⟨i, hi, rfl⟩ := Array.mem_iff_getElem.1 hd
  exact ⟨⟨i⟩, Array.getElem?_eq_getElem hi⟩

theorem exists_of_declared? {c : ClassId} {sub : String} {id : MethodId}
    (h : m.declared? c sub = some id) :
    ∃ d, m.methods[id.index]? = some d ∧ d.owner = c ∧ d.subsignature = sub := by
  obtain ⟨⟨i, d⟩, hfind, rfl⟩ := Option.map_eq_some_iff.1 h
  have htest := List.find?_some hfind
  simp only [Bool.and_eq_true, decide_eq_true_eq, beq_iff_eq] at htest
  exact ⟨d, mem_methodEntries.1 (List.mem_of_find?_eq_some hfind), htest⟩

theorem exists_declared? {id : MethodId} {d : MethodDecl} (h : m.methods[id.index]? = some d) :
    ∃ first, m.declared? d.owner d.subsignature = some first := by
  have hsome : (m.methodEntries.find? fun e =>
      e.2.owner = d.owner && e.2.subsignature == d.subsignature).isSome = true :=
    List.find?_isSome.2 ⟨(id, d), mem_methodEntries.2 h, by simp⟩
  obtain ⟨e, he⟩ := Option.isSome_iff_exists.1 hsome
  exact ⟨e.1, by rw [declared?, he]; rfl⟩

/-- The first method with a subsignature is the only one. -/
theorem DeclaredOnce.declared?_eq_some (h : m.DeclaredOnce) {id : MethodId} {d : MethodDecl}
    (hd : m.methods[id.index]? = some d) : m.declared? d.owner d.subsignature = some id := by
  obtain ⟨first, hfirst⟩ := exists_declared? hd
  obtain ⟨e, he, howner, hsub⟩ := exists_of_declared? hfirst
  obtain rfl := h he hd howner hsub
  exact hfirst

theorem declared?_eq_none_iff {target : MethodRef} :
    m.declared? target.owner target.subsignature = none ↔
      ∀ d ∈ m.methods, ¬DeclaredAs d target := by
  constructor
  · rintro h d hd ⟨howner, hsub⟩
    obtain ⟨id, hid⟩ := exists_id_of_mem hd
    obtain ⟨first, hfirst⟩ := exists_declared? hid
    rw [howner, hsub, h] at hfirst
    cases hfirst
  · intro h
    by_contra hsome
    obtain ⟨id, hid⟩ := Option.ne_none_iff_exists'.1 hsome
    obtain ⟨d, hd, hdeclared⟩ := exists_of_declared? hid
    exact h d (Array.mem_of_getElem? hd) hdeclared

theorem duplicateViolations_eq_nil_iff : m.duplicateViolations = [] ↔ m.DeclaredOnce := by
  simp only [duplicateViolations, List.flatMap_eq_nil_iff, ite_eq_nil_iff, Prod.forall,
    mem_methodEntries]
  constructor
  · intro h i j d e hd he howner hsub
    have hi := h i d hd
    rw [howner, hsub, h j e he] at hi
    exact (Option.some.inj hi).symm
  · intro h id d hd
    exact h.declared?_eq_some hd

/-! ## Statements -/

theorem varViolations_eq_nil_iff {id : MethodId} {site : StmtId} {v : VarId} :
    m.varViolations id site v = [] ↔ m.HasVar id v := by
  unfold varViolations HasVar
  cases m.vars[v.index]? with
  | none => simp
  | some d => simp

theorem accessViolations_eq_nil_iff {site : StmtId} {access : FieldAccess} :
    m.accessViolations site access = [] ↔ m.FormedAccess access := by
  unfold accessViolations FormedAccess
  cases m.fields[access.field.index]? with
  | none => simp
  | some d => cases hstatic : d.isStatic <;> cases access.base <;> simp [hstatic]

theorem receiverViolations_eq_nil_iff (h : m.DeclaredOnce) {site : StmtId} {call : Invoke} :
    m.receiverViolations site call = [] ↔ (call.receiver.isSome = true ↔ call.kind ≠ .static) ∧
      (call.kind = .static → ∃ d ∈ m.methods, DeclaredAs d call.target ∧ d.isAbstract = false) := by
  have hbody : (m.declared? call.target.owner call.target.subsignature).any
      (!m.isAbstract ·) = true ↔
      ∃ d ∈ m.methods, DeclaredAs d call.target ∧ d.isAbstract = false := by
    rw [Option.any_eq_true]
    constructor
    · rintro ⟨id, hid, habstract⟩
      obtain ⟨d, hd, hdeclared⟩ := exists_of_declared? hid
      refine ⟨d, Array.mem_of_getElem? hd, hdeclared, ?_⟩
      simpa [isAbstract, hd] using habstract
    · rintro ⟨d, hd, hdeclared, habstract⟩
      obtain ⟨id, hid⟩ := exists_id_of_mem hd
      have hfirst := h.declared?_eq_some hid
      rw [hdeclared.1, hdeclared.2] at hfirst
      exact ⟨id, hfirst, by simp [isAbstract, hid, habstract]⟩
  unfold receiverViolations
  cases call.kind <;> cases call.receiver <;> simp [hbody]

theorem arityViolations_eq_nil_iff (h : m.DeclaredOnce) {site : StmtId} {call : Invoke} :
    m.arityViolations site call = [] ↔
      ∀ d ∈ m.methods, DeclaredAs d call.target → call.args.length = d.params.length := by
  unfold arityViolations
  cases hd : m.declared? call.target.owner call.target.subsignature with
  | none =>
    refine iff_of_true rfl fun d hmem hdeclared => ?_
    exact absurd hdeclared (declared?_eq_none_iff.1 hd d hmem)
  | some id =>
    obtain ⟨d, hget, hdeclared⟩ := exists_of_declared? hd
    simp only [hget, Option.map_some, Option.getD_some, ite_eq_nil_iff]
    constructor
    · intro hlength e he hdeclared'
      obtain ⟨id', hid'⟩ := exists_id_of_mem he
      obtain rfl := h hget hid' (hdeclared.1.trans hdeclared'.1.symm)
        (hdeclared.2.trans hdeclared'.2.symm)
      cases hget.symm.trans hid'
      exact hlength
    · intro hall
      exact hall d (Array.mem_of_getElem? hget) hdeclared

theorem stmtViolations_eq_nil_iff (h : m.DeclaredOnce) {d : MethodDecl} {site : StmtId} {s : Stmt} :
    m.stmtViolations d site s = [] ↔
      (∀ v ∈ s.defined.toList ++ s.used, m.HasVar site.method v) ∧ m.FormedStmt d s := by
  unfold stmtViolations
  rw [List.append_eq_nil_iff, List.flatMap_eq_nil_iff]
  refine and_congr (forall₂_congr fun _ _ => varViolations_eq_nil_iff) ?_
  cases s with
  | alloc | cast => exact tyViolations_eq_nil_iff
  | loadField | storeField => exact accessViolations_eq_nil_iff
  | invoke call =>
    simp only [List.append_eq_nil_iff, classViolations_eq_nil_iff,
      receiverViolations_eq_nil_iff h, arityViolations_eq_nil_iff h]
    constructor
    · rintro ⟨⟨howner, hreceiver, hbody⟩, harity⟩
      exact ⟨howner, hreceiver, hbody, harity⟩
    · rintro ⟨howner, hreceiver, hbody, harity⟩
      exact ⟨⟨howner, hreceiver, hbody⟩, harity⟩
  | branch | switch | goto =>
    simp [FormedStmt, targetViolations]
  | copy | literal | binary | loadArray | storeArray | ret | nop => exact iff_of_true rfl trivial

/-! ## Methods -/

theorem methodViolations_eq_nil_iff (h : m.DeclaredOnce) {id : MethodId} {d : MethodDecl} :
    m.methodViolations id d = [] ↔ m.FormedMethod id d := by
  have hbody : (if d.isAbstract && !d.body.isEmpty then [ModelError.abstractWithBody id] else []) =
      [] ↔ (d.isAbstract = true → d.body = #[]) := by
    cases d.isAbstract <;> simp
  have hthis : (if !d.isStatic && !d.isAbstract && d.this.isNone then [ModelError.missingThis id]
      else []) = [] ↔ (d.isStatic = false → d.isAbstract = false → d.this.isSome = true) := by
    cases d.isStatic <;> cases d.isAbstract <;> cases d.this <;> simp
  have hstmts : (∀ e ∈ d.stmts id, m.stmtViolations d e.1 e.2 = []) ↔
      ∀ s ∈ d.body, (∀ v ∈ s.defined.toList ++ s.used, m.HasVar id v) ∧ m.FormedStmt d s := by
    simp only [stmtViolations_eq_nil_iff h, Prod.forall, mem_stmts]
    constructor
    · intro hall s hs
      obtain ⟨i, hi, rfl⟩ := Array.mem_iff_getElem.1 hs
      exact hall ⟨id, i⟩ _ ⟨rfl, Array.getElem?_eq_getElem hi⟩
    · rintro hall site s ⟨rfl, hs⟩
      exact hall s (Array.mem_of_getElem? hs)
  unfold methodViolations
  simp only [List.append_eq_nil_iff, List.flatMap_eq_nil_iff, varViolations_eq_nil_iff, hbody,
    hthis]
  constructor
  · rintro ⟨⟨⟨hb, ht⟩, hparams⟩, hs⟩
    have hs := hstmts.1 hs
    exact ⟨hb, ht, hparams, fun s hmem => (hs s hmem).1, fun s hmem => (hs s hmem).2⟩
  · rintro ⟨hb, ht, hparams, hvars, hforms⟩
    exact ⟨⟨⟨hb, ht⟩, hparams⟩, hstmts.2 fun s hmem => ⟨hvars s hmem, hforms s hmem⟩⟩

theorem entryViolations_eq_nil_iff : m.entryViolations = [] ↔
    ∀ d, m.methods[m.entry.index]? = some d → d.isStatic = true ∧ d.isAbstract = false := by
  unfold entryViolations
  cases m.methods[m.entry.index]? with
  | none => simp
  | some d => simp

/-- The check finds nothing wrong with a model exactly if the model is well-formed. -/
theorem violations_eq_nil_iff : m.violations = [] ↔ m.WellFormed := by
  simp only [violations, List.append_eq_nil_iff, List.flatMap_eq_nil_iff, Prod.forall,
    mem_methodEntries, tableViolations_eq_nil_iff, duplicateViolations_eq_nil_iff,
    entryViolations_eq_nil_iff]
  constructor
  · rintro ⟨⟨⟨⟨htables, hcycles⟩, honce⟩, hmethods⟩, hentry⟩
    exact ⟨htables, htables.cycleViolations_eq_nil_iff.1 hcycles, honce,
      fun hd => (methodViolations_eq_nil_iff honce).1 (hmethods _ _ hd), hentry⟩
  · rintro ⟨htables, hchains, honce, hmethods, hentry⟩
    exact ⟨⟨⟨⟨htables, htables.cycleViolations_eq_nil_iff.2 hchains⟩, honce⟩,
      fun id d hd => (methodViolations_eq_nil_iff honce).2 (hmethods hd)⟩, hentry⟩

instance : Decidable m.WellFormed := decidable_of_iff _ violations_eq_nil_iff

end Model

theorem Program.Accepted.wellFormed {p : Program} (hp : p.Accepted) : p.model.WellFormed :=
  Model.violations_eq_nil_iff.1 hp.eq_index.1

end ObjectFlow
