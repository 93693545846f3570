import ObjectFlow.Proofs.Listing

/-!
# Checking a model in steps

The list of all that is wrong with a model is read to its first member, and the tables of a program
are described one entry at a time. The same answer is found by one pass over the model that stops at
the first thing wrong and fills the tables as it goes (`Model.check`). On its way it reads tables at
the numbers that it has come across. Such a read would have no answer at a number outside of its
table. It never comes to that (`check_eq`): where a table is read, the number has been found to be
in range before, by an earlier step or by an earlier part of the same step.

So each step is compared with its part of the list, and with what it adds to the tables, under the
assumption that the parts of the list before it are empty (`bind_eq_ofViolations`). Superclasses are
climbed link by link, at most as many links as there are classes, which the list tells from the
classes of a chain.
-/

namespace ObjectFlow

namespace Model

variable {m : Model}

/-! ## Steps -/

/-- Why a check stops before its end. -/
inductive Stop
  | refused (e : ModelError)
  /-- A table is read at a number that it does not have. -/
  | outside
deriving DecidableEq, Repr

/-- The entry of a table at a number. -/
def entryAt {α : Type} (table : Array α) (i : Nat) : Except Stop α :=
  match table[i]? with
  | some a => .ok a
  | none => .error .outside

/-- Change the entry of a table at a number. -/
def modifyAt {α : Type} (table : Array α) (i : Nat) (f : α → α) : Except Stop (Array α) := do
  let _ ← entryAt table i
  return table.modify i f

/-- Stop at the first thing wrong, or go on with a value. -/
def ofViolations {α : Type} (a : α) : List ModelError → Except Stop α
  | [] => .ok a
  | e :: _ => .error (.refused e)

/-- Go up from a superclass of `c`, at most the given number of links. -/
def climb (m : Model) (c : ClassId) : (room : Nat) → Option ClassId → Except Stop Unit
  | _, none => .ok ()
  | 0, some _ => .error (.refused (.cyclicHierarchy c))
  | room + 1, some s => do m.climb c room (← entryAt m.classes s.index).superclass

/-- List the classes below each class, climb from each class, and list the methods of each class. -/
def checkHierarchy (m : Model) : Except Stop Unit := do
  m.classes.toList.forM fun d =>
    (d.superclass.toList ++ d.interfaces).forM fun c => do let _ ← entryAt m.classes c.index
  m.classIds.forM fun c => do
    m.climb c m.classes.size (← entryAt m.classes c.index).superclass
  m.methodEntries.forM fun (id, d) => do
    let _ ← entryAt m.classes d.owner.index
    ofViolations () (if m.declared? d.owner d.subsignature = some id then []
      else [.duplicateMethod d.owner d.subsignature])

/-- List each variable for the method that it names. -/
def listVarsAt (m : Model) : Except Stop (Array (List VarId)) :=
  m.varEntries.foldlM (fun rows e => modifyAt rows e.2.method.index (· ++ [e.1]))
    (Array.replicate m.methods.size [])

/-- Note that a statement goes through a variable, if it goes through one. -/
def noteUse (n : Notes) (way : Access) (site : StmtId) : Option VarId → Except Stop Notes
  | none => .ok n
  | some v => do return { n with uses := ← modifyAt n.uses v.index (·.push way site) }

def checkAccess (m : Model) (site : StmtId) (access : FieldAccess) : Except Stop Unit := do
  ofViolations () (if access.field.index < m.fields.size then [] else [.unknownField access.field])
  let d ← entryAt m.fields access.field.index
  match d.isStatic, access.base with
  | true, some _ => .error (.refused (.staticFieldThroughObject site access.field))
  | false, none => .error (.refused (.instanceFieldWithoutObject site access.field))
  | true, none | false, some _ => .ok ()

def checkReceiver (m : Model) (n : Notes) (site : StmtId) (call : Invoke) : Except Stop Notes :=
  match call.kind, call.receiver with
  | .static, some _ => .error (.refused (.staticWithReceiver site))
  | .static, none => do
    let _ ← entryAt m.classes call.target.owner.index
    ofViolations n
      (if (m.declared? call.target.owner call.target.subsignature).any (!m.isAbstract ·) then []
      else [.missingStaticTarget site call.target.owner call.target.subsignature])
  | _, none => .error (.refused (.missingReceiver site))
  | _, some _ => noteUse n .invoke site call.receiver

def checkArity (m : Model) (site : StmtId) (call : Invoke) : Except Stop Unit := do
  let _ ← entryAt m.classes call.target.owner.index
  match m.declared? call.target.owner call.target.subsignature with
  | none => .ok ()
  | some callee =>
    let e ← entryAt m.methods callee.index
    ofViolations () (if call.args.length = e.params.length then []
      else [.arityMismatch site call.target.subsignature e.params.length call.args.length])

/-- Check a call and note it, its receiver before its arguments are counted. -/
def checkCall (m : Model) (n : Notes) (site : StmtId) (call : Invoke) : Except Stop Notes := do
  ofViolations () (m.classViolations call.target.owner)
  let n ← m.checkReceiver n site call
  m.checkArity site call
  return { n with callSites := n.callSites ++ [site] }

/-- Check what is particular to the form of a statement, and note what is listed of it. -/
def checkForm (m : Model) (d : MethodDecl) (n : Notes) (site : StmtId) : Stmt → Except Stop Notes
  | .alloc _ ty | .cast _ _ ty => ofViolations n (m.tyViolations ty)
  | .loadField _ access => do
    m.checkAccess site access
    noteUse n .loadField site access.base
  | .storeField access _ => do
    m.checkAccess site access
    noteUse n .storeField site access.base
  | .loadArray _ base _ => noteUse n .loadArray site (some base)
  | .storeArray base _ _ => noteUse n .storeArray site (some base)
  | .invoke call => m.checkCall n site call
  | .branch op _ _ target =>
    ofViolations n ((if op.isComparison then [] else [.nonComparisonBranch site])
      ++ targetViolations d site target)
  | .switch _ cases default =>
    ofViolations n (targetViolations d site default
      ++ cases.flatMap fun c => targetViolations d site c.2)
  | .goto target => ofViolations n (targetViolations d site target)
  | .ret (some v) => .ok { n with
      returnVars := if n.returnVars.contains v then n.returnVars else n.returnVars ++ [v] }
  | .copy .. | .literal .. | .binary .. | .ret none | .nop => .ok n

def checkStmt (m : Model) (d : MethodDecl) (n : Notes) (e : StmtId × Stmt) : Except Stop Notes := do
  (e.2.defined.toList ++ e.2.used).forM fun v =>
    ofViolations () (m.varViolations e.1.method e.1 v)
  m.checkForm d n e.1 e.2

/-- Check a method, and take over the variables that are listed for it. -/
def checkMethod (m : Model) (t : Tables) (e : MethodId × MethodDecl) : Except Stop Tables := do
  let (id, d) := e
  ofViolations () (if d.isAbstract && !d.body.isEmpty then [.abstractWithBody id] else [])
  ofViolations () (if !d.isStatic && !d.isAbstract && d.this.isNone then [.missingThis id] else [])
  (d.params ++ d.this.toList).forM fun v => ofViolations () (m.varViolations id ⟨id, 0⟩ v)
  let n ← (d.stmts id).foldlM (m.checkStmt d) { uses := t.uses }
  let vars ← entryAt t.vars id.index
  return {
    vars := t.vars.setIfInBounds id.index []
    uses := n.uses
    methods := t.methods.push
      { id, decl := d, returnVars := n.returnVars, vars, callSites := n.callSites } }

/-- Check a model in steps: its tables, its hierarchy, the methods of its variables, its methods and
the form of its entry. The tables that are filled on the way make up the program. -/
def check (m : Model) : Except Stop Program := do
  ofViolations () m.tableViolations
  m.checkHierarchy
  let vars ← m.listVarsAt
  let t ← m.methodEntries.foldlM m.checkMethod
    { vars, uses := Array.replicate m.vars.size default }
  let entry ← entryAt t.methods m.entry.index
  ofViolations ()
    (if entry.decl.isStatic && !entry.decl.isAbstract then [] else [.badEntry m.entry])
  return ⟨m, .ofModel m, t.methods, t.uses⟩

/-! ## Steps and parts of the list -/

theorem entryAt_bind {α β : Type} {table : Array α} {i : Nat} {a : α} (h : table[i]? = some a)
    (f : α → Except Stop β) : entryAt table i >>= f = f a := by
  unfold entryAt
  rw [h]
  rfl

theorem entryAt_bind_of_lt {α β : Type} {table : Array α} {i : Nat} (h : i < table.size)
    (x : Except Stop β) : (entryAt table i >>= fun _ => x) = x :=
  entryAt_bind (Array.getElem?_eq_getElem h) fun _ => x

theorem modifyAt_of_lt {α : Type} {table : Array α} {i : Nat} (h : i < table.size) (f : α → α) :
    modifyAt table i f = .ok (table.modify i f) :=
  entryAt_bind_of_lt h _

/-- A step may rely on the part of the list before it being empty. -/
theorem bind_eq_ofViolations {α β : Type} {x : Except Stop α} {f : α → Except Stop β}
    {before after : List ModelError} {a : α} {b : β} (hx : x = ofViolations a before)
    (hf : before = [] → f a = ofViolations b after) :
    x >>= f = ofViolations b (before ++ after) := by
  cases before with
  | nil => rw [hx]; exact hf rfl
  | cons e before => rw [hx]; rfl

/-- A last step at which nothing can be wrong. -/
theorem bind_ok_eq_ofViolations {α β : Type} {x : Except Stop α} {f : α → Except Stop β}
    {vs : List ModelError} {a : α} {b : β} (hx : x = ofViolations a vs)
    (hf : vs = [] → f a = .ok b) : x >>= f = ofViolations b vs := by
  rw [← List.append_nil vs]
  exact bind_eq_ofViolations hx hf

theorem bind_of_eq_ok {α β : Type} {x : Except Stop α} {a : α} (h : x = .ok a)
    (f : α → Except Stop β) : x >>= f = f a := by
  rw [h]
  rfl

theorem forM_eq_ofViolations {α : Type} {xs : List α} {f : α → Except Stop Unit}
    {g : α → List ModelError} (h : ∀ x ∈ xs, f x = ofViolations () (g x)) :
    xs.forM f = ofViolations () (xs.flatMap g) := by
  induction xs with
  | nil => rfl
  | cons x xs ih =>
    rw [List.flatMap_cons]
    exact bind_eq_ofViolations (h x List.mem_cons_self) fun _ =>
      ih fun y hy => h y (List.mem_cons_of_mem _ hy)

theorem forM_eq_ok {α : Type} {xs : List α} {f : α → Except Stop Unit}
    (h : ∀ x ∈ xs, f x = .ok ()) : xs.forM f = .ok () := by
  rw [forM_eq_ofViolations (g := fun _ => []) h]
  exact congrArg (ofViolations ()) (List.flatMap_eq_nil_iff.2 fun _ _ => rfl)

/-- A pass that finds what is wrong with each member of a list, and changes a state as `next` does,
as long as the state has a property that `next` keeps. -/
theorem foldlM_eq_ofViolations {α σ : Type} {P : σ → Prop} {f : σ → α → Except Stop σ}
    {next : σ → α → σ} {g : α → List ModelError} {xs : List α} {s : σ} (hs : P s)
    (hnext : ∀ {s}, P s → ∀ x, P (next s x))
    (h : ∀ {s}, P s → ∀ x ∈ xs, f s x = ofViolations (next s x) (g x)) :
    xs.foldlM f s = ofViolations (xs.foldl next s) (xs.flatMap g) := by
  induction xs generalizing s with
  | nil => rfl
  | cons x xs ih =>
    rw [List.foldlM_cons, List.foldl_cons, List.flatMap_cons]
    refine bind_eq_ofViolations (h hs x List.mem_cons_self) fun _ => ?_
    exact ih (hnext hs x) fun hs y hy => h hs y (List.mem_cons_of_mem _ hy)

/-! ## The hierarchy -/

theorem FormedTables.climb_eq (ht : m.FormedTables) (c : ClassId) {room : Nat} {d : ClassId}
    (hd : d.index < m.classes.size) : m.climb c room (m.superclass? d) =
      ofViolations () (if m.ancestor? (room + 1) d = none then [] else [.cyclicHierarchy c]) := by
  induction room generalizing d with
  | zero =>
    rw [ancestor?]
    cases m.superclass? d <;> rfl
  | succ room ih =>
    rw [ancestor?]
    cases hs : m.superclass? d with
    | none => rfl
    | some s =>
      have hlt := ht.lt_of_superclass hs
      rw [climb, entryAt_bind (Array.getElem?_eq_getElem hlt), ← superclass?_of_lt hlt]
      exact ih hlt

/-- Links and classes of a chain tell the same about its end. -/
theorem FormedTables.climb_size (ht : m.FormedTables) {c : ClassId}
    (hc : c.index < m.classes.size) :
    m.climb c m.classes.size (m.superclass? c) = ofViolations ()
      (if (m.lineage? m.classes.size c).isSome then [] else [.cyclicHierarchy c]) := by
  rw [ht.climb_eq c hc]
  have hiff : m.ancestor? (m.classes.size + 1) c = none ↔
      (m.lineage? m.classes.size c).isSome = true := by
    rw [ht.isSome_lineage?_iff hc]
    exact ⟨fun h => ⟨_, h⟩, fun h =>
      ancestor?_eq_none_of_le (Nat.le_succ _) (ht.ancestor?_size hc h)⟩
  simp only [hiff]

theorem FormedTables.checkHierarchy_eq (ht : m.FormedTables) :
    m.checkHierarchy = ofViolations () (m.cycleViolations ++ m.duplicateViolations) := by
  have hlinks : (m.classes.toList.forM fun d => (d.superclass.toList ++ d.interfaces).forM fun c =>
      entryAt m.classes c.index >>= fun _ => (pure () : Except Stop Unit)) = .ok () := by
    refine forM_eq_ok fun d hd => forM_eq_ok fun c hc => ?_
    have hd := Array.mem_toList_iff.1 hd
    refine entryAt_bind_of_lt ?_ _
    rcases List.mem_append.1 hc with hc | hc
    · exact ht.superclasses d hd c (Option.mem_toList.1 hc)
    · exact ht.interfaces d hd c hc
  unfold checkHierarchy
  rw [bind_of_eq_ok hlinks]
  refine bind_eq_ofViolations (forM_eq_ofViolations fun c hc => ?_) fun _ =>
    forM_eq_ofViolations fun e he => ?_
  · have hc := Id.mem_range.1 hc
    rw [entryAt_bind (Array.getElem?_eq_getElem hc), ← superclass?_of_lt hc]
    exact ht.climb_size hc
  · have hmem := Array.mem_of_getElem? (mem_methodEntries.1 he)
    exact entryAt_bind_of_lt (ht.owners e.2 hmem) _

/-! ## Statements -/

section

variable {n : Notes} {site : StmtId}

theorem noteUse_eq {e : StmtId × Stmt} {way : Access} (hway : e.2.access? = some way)
    (hthrough : ∀ v ∈ e.2.through, v.index < n.uses.size) :
    noteUse n way e.1 e.2.through = .ok { n with uses := noteUses n.uses e } := by
  unfold noteUses
  rw [hway]
  cases hv : e.2.through with
  | none => rfl
  | some v => exact bind_of_eq_ok (modifyAt_of_lt (hthrough v hv) _) _

theorem checkAccess_eq (site : StmtId) (access : FieldAccess) :
    m.checkAccess site access = ofViolations () (m.accessViolations site access) := by
  unfold checkAccess accessViolations
  cases hd : m.fields[access.field.index]? with
  | none =>
    rw [if_neg (Array.getElem?_eq_none_iff.1 hd).not_gt]
    rfl
  | some d =>
    rw [if_pos (Array.getElem?_eq_some_iff.1 hd).1]
    show (entryAt m.fields access.field.index >>= _) = _
    rw [entryAt_bind hd]
    dsimp only
    cases d.isStatic <;> cases access.base <;> rfl

theorem checkReceiver_eq {call : Invoke} (howner : call.target.owner.index < m.classes.size)
    (hreceiver : ∀ v ∈ call.receiver, v.index < n.uses.size) :
    m.checkReceiver n site call =
      ofViolations { n with uses := noteUses n.uses (site, .invoke call) }
        (m.receiverViolations site call) := by
  have hnote := noteUse_eq (n := n) (e := (site, .invoke call)) rfl hreceiver
  obtain ⟨kind, result, receiver, target, args⟩ := call
  cases kind with
  | static =>
    cases receiver with
    | none => exact entryAt_bind_of_lt howner _
    | some v => rfl
  | special | virtual | interface =>
    cases receiver with
    | none => rfl
    | some v => exact hnote

theorem checkArity_eq {call : Invoke} (howner : call.target.owner.index < m.classes.size) :
    m.checkArity site call = ofViolations () (m.arityViolations site call) := by
  unfold checkArity arityViolations
  rw [entryAt_bind_of_lt howner]
  cases hd : m.declared? call.target.owner call.target.subsignature with
  | none => rfl
  | some callee =>
    obtain ⟨d, hget, -⟩ := exists_of_declared? hd
    simp only [entryAt_bind hget, hget, Option.map_some, Option.getD_some]

theorem checkCall_eq {call : Invoke} (hreceiver : ∀ v ∈ call.receiver, v.index < n.uses.size) :
    m.checkCall n site call = ofViolations (n.note (site, .invoke call))
      (m.classViolations call.target.owner ++ m.receiverViolations site call
        ++ m.arityViolations site call) := by
  unfold checkCall
  rw [List.append_assoc]
  refine bind_eq_ofViolations rfl fun howner => ?_
  have howner := classViolations_eq_nil_iff.1 howner
  exact bind_eq_ofViolations (checkReceiver_eq howner hreceiver) fun _ =>
    bind_ok_eq_ofViolations (checkArity_eq howner) fun _ => rfl

theorem checkStmt_eq {d : MethodDecl} (hn : n.uses.size = m.vars.size) (e : StmtId × Stmt) :
    m.checkStmt d n e = ofViolations (n.note e) (m.stmtViolations d e.1 e.2) := by
  obtain ⟨site, s⟩ := e
  refine bind_eq_ofViolations (forM_eq_ofViolations fun _ _ => rfl) fun hvars => ?_
  have hthrough : ∀ v ∈ s.through, v.index < n.uses.size := by
    intro v hv
    have hused := Stmt.mem_used_of_through (Option.mem_def.1 hv)
    obtain ⟨d, hd, -⟩ := varViolations_eq_nil_iff.1
      (List.flatMap_eq_nil_iff.1 hvars v (List.mem_append_right _ hused))
    rw [hn]
    exact (Array.getElem?_eq_some_iff.1 hd).1
  cases s with
  | loadField lhs access =>
    exact bind_ok_eq_ofViolations (checkAccess_eq site access) fun _ => noteUse_eq rfl hthrough
  | storeField access rhs =>
    exact bind_ok_eq_ofViolations (checkAccess_eq site access) fun _ => noteUse_eq rfl hthrough
  | loadArray lhs base index =>
    exact noteUse_eq (e := (site, .loadArray lhs base index)) rfl hthrough
  | storeArray base index rhs =>
    exact noteUse_eq (e := (site, .storeArray base index rhs)) rfl hthrough
  | invoke call => exact checkCall_eq hthrough
  | ret value => cases value <;> rfl
  | alloc | cast | branch | switch | goto | copy | literal | binary | nop => rfl

end

/-! ## The whole check -/

theorem FormedTables.listVarsAt_eq (ht : m.FormedTables) : m.listVarsAt = .ok m.listVars := by
  have hpass : m.listVarsAt = ofViolations m.listVars (m.varEntries.flatMap fun _ => []) := by
    refine foldlM_eq_ofViolations (P := fun rows => rows.size = m.methods.size)
      Array.size_replicate (fun hsize e => Array.size_modify.trans hsize) ?_
    intro rows hsize e he
    refine modifyAt_of_lt ?_ _
    rw [hsize]
    exact (ht.vars e.2 (Array.mem_of_getElem? (mem_range_zip.1 he))).1
  rw [hpass, List.flatMap_eq_nil_iff.2 fun _ _ => rfl]
  rfl

/-- The tables have an entry for each variable and for each method. -/
def Tables.Fits (m : Model) (t : Tables) : Prop :=
  t.uses.size = m.vars.size ∧ t.vars.size = m.methods.size

theorem Tables.Fits.add {t : Tables} (ht : t.Fits m) (e : MethodId × MethodDecl) :
    (t.add e).Fits m := by
  refine ⟨?_, Array.size_setIfInBounds.trans ht.2⟩
  show (List.foldl Notes.note { uses := t.uses } (e.2.stmts e.1)).uses.size = _
  rw [uses_foldl_note, size_foldl size_noteUses]
  exact ht.1

theorem fits_blank (m : Model) : m.blank.Fits m := by
  refine ⟨Array.size_replicate, ?_⟩
  show m.listVars.size = _
  rw [listVars, size_foldl fun _ _ => Array.size_modify, Array.size_replicate]

theorem checkMethod_eq {t : Tables} (ht : t.Fits m) {e : MethodId × MethodDecl}
    (he : e ∈ m.methodEntries) :
    m.checkMethod t e = ofViolations (t.add e) (m.methodViolations e.1 e.2) := by
  obtain ⟨id, d⟩ := e
  have hlt : id.index < t.vars.size := by
    rw [ht.2]
    exact (Array.getElem?_eq_some_iff.1 (mem_methodEntries.1 he)).1
  have hstmts : (d.stmts id).foldlM (m.checkStmt d) { uses := t.uses } =
      ofViolations ((d.stmts id).foldl Notes.note { uses := t.uses })
        ((d.stmts id).flatMap fun e => m.stmtViolations d e.1 e.2) :=
    foldlM_eq_ofViolations (P := fun n => n.uses.size = m.vars.size) ht.1
      (fun hn e => (size_noteUses _ e).trans hn) fun hn e _ => checkStmt_eq hn e
  unfold checkMethod methodViolations
  rw [List.append_assoc, List.append_assoc]
  refine bind_eq_ofViolations rfl fun _ => bind_eq_ofViolations rfl fun _ =>
    bind_eq_ofViolations (forM_eq_ofViolations fun _ _ => rfl) fun _ =>
    bind_ok_eq_ofViolations hstmts fun _ => ?_
  rw [entryAt_bind (Array.getElem?_eq_getElem hlt)]
  simp only [Tables.add, Array.getElem?_eq_getElem hlt, Option.getD_some]
  rfl

/-- The check in steps never reads outside of a table, stops at the first member of the list, and
finds the program that is described. -/
theorem check_eq (m : Model) : m.check = ofViolations (Program.index m) m.violations := by
  unfold check violations
  rw [List.append_assoc, List.append_assoc, List.append_assoc]
  refine bind_eq_ofViolations rfl fun htables => ?_
  have ht := tableViolations_eq_nil_iff.1 htables
  rw [ht.checkHierarchy_eq, ← List.append_assoc]
  refine bind_eq_ofViolations rfl fun hhierarchy => ?_
  rw [bind_of_eq_ok ht.listVarsAt_eq]
  refine bind_eq_ofViolations (foldlM_eq_ofViolations m.fits_blank (fun h e => h.add e)
    fun h e he => checkMethod_eq h he) fun hmethods => ?_
  obtain ⟨d, hd⟩ : ∃ d, m.methods[m.entry.index]? = some d :=
    ⟨_, Array.getElem?_eq_getElem ht.entry⟩
  have hentry : m.tabulate.methods[m.entry.index]? = some (m.indexedMethod m.entry d) := by
    rw [methods_tabulate, Program.getElem?_methods_index, hd]
    rfl
  have hviolations : m.entryViolations =
      if d.isStatic && !d.isAbstract then [] else [.badEntry m.entry] := by
    rw [entryViolations, hd]
  show entryAt m.tabulate.methods m.entry.index >>= _ = _
  rw [entryAt_bind hentry, hviolations]
  refine bind_ok_eq_ofViolations rfl fun hlast => ?_
  -- All of the list is empty here, so the tables are those of a well-formed model.
  have hwf : m.WellFormed := by
    rw [← violations_eq_nil_iff, violations, hmethods, hviolations, hlast, htables]
    simpa using hhierarchy
  rw [hwf.tabulate_eq]
  rfl

/-- **Exactly the well-formed models are accepted.** Any other model is refused, with the reason
that the check in steps stops at. An accepted one becomes the program whose tables the check fills.
-/
theorem ofModel_accepts_wellFormed (m : Model) :
    ((∃ p, Program.ofModel m = .ok p) ↔ m.WellFormed) ∧
      m.check = (Program.ofModel m).mapError Stop.refused := by
  rw [← violations_eq_nil_iff, check_eq, Program.ofModel]
  cases m.violations with
  | nil => exact ⟨iff_of_true ⟨_, rfl⟩ rfl, rfl⟩
  | cons e rest => exact ⟨iff_of_false (by rintro ⟨p, hp⟩; cases hp) (by simp), rfl⟩

end Model

end ObjectFlow
