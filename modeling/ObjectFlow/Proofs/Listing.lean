import ObjectFlow.Proofs.WellFormedness
import Mathlib.Data.List.Induction

/-!
# Filling the tables of a program

The indexes of a program are described one entry at a time: the uses of a variable are the
statements of its method that go through it. They can be had in one pass over all statements that
adds each statement at the end of the lists where it belongs (`Notes.note`, `Tables.add`). A method
that has been passed also takes over the variables that are listed for it.

What a pass has listed in the end is read off what each step adds. A variable collects statements
from all methods, and in a well-formed model only its own method has any
(`Model.WellFormed.sitesWhere_through`). So the pass fills the tables that the description gives
(`Model.WellFormed.tabulate_eq`).
-/

namespace ObjectFlow

/-- The ways in which a statement goes through the objects of a variable. -/
inductive Access
  | storeField
  | loadField
  | storeArray
  | loadArray
  | invoke
deriving DecidableEq, Repr

/-- The way in which a statement of this form goes through objects. -/
def Stmt.access? : Stmt → Option Access
  | storeField .. => some .storeField
  | loadField .. => some .loadField
  | storeArray .. => some .storeArray
  | loadArray .. => some .loadArray
  | invoke _ => some .invoke
  | _ => none

namespace VarUses

/-- The statements that go through a variable in a certain way. -/
def sites (uses : VarUses) : Access → List StmtId
  | .storeField => uses.storeFields
  | .loadField => uses.loadFields
  | .storeArray => uses.storeArrays
  | .loadArray => uses.loadArrays
  | .invoke => uses.invokes

def push (uses : VarUses) (way : Access) (site : StmtId) : VarUses :=
  match way with
  | .storeField => { uses with storeFields := uses.storeFields ++ [site] }
  | .loadField => { uses with loadFields := uses.loadFields ++ [site] }
  | .storeArray => { uses with storeArrays := uses.storeArrays ++ [site] }
  | .loadArray => { uses with loadArrays := uses.loadArrays ++ [site] }
  | .invoke => { uses with invokes := uses.invokes ++ [site] }

theorem sites_push (uses : VarUses) (way way' : Access) (site : StmtId) :
    (uses.push way site).sites way' = uses.sites way' ++ if way = way' then [site] else [] := by
  cases way <;> cases way' <;> simp [push, sites]

theorem ext_sites {uses uses' : VarUses} (h : ∀ way, uses.sites way = uses'.sites way) :
    uses = uses' := by
  obtain ⟨s₁, s₂, s₃, s₄, s₅⟩ := uses
  obtain ⟨t₁, t₂, t₃, t₄, t₅⟩ := uses'
  obtain rfl : s₁ = t₁ := h .storeField
  obtain rfl : s₂ = t₂ := h .loadField
  obtain rfl : s₃ = t₃ := h .storeArray
  obtain rfl : s₄ = t₄ := h .loadArray
  obtain rfl : s₅ = t₅ := h .invoke
  rfl

end VarUses

/-! ## Numbered tables -/

theorem Id.range_ascending (kind : Kind) (n : Nat) :
    (Id.range kind n).Pairwise (·.index < ·.index) :=
  List.pairwise_map.2 List.pairwise_lt_range

theorem Id.nodup_of_ascending {kind : Kind} {ids : List (Id kind)}
    (h : ids.Pairwise (·.index < ·.index)) : ids.Nodup :=
  h.imp fun hlt heq => Nat.ne_of_lt hlt (congrArg Id.index heq)

theorem Id.map_fst_range_zip {α : Type} {kind : Kind} (table : Array α) :
    ((Id.range kind table.size).zip table.toList).map Prod.fst = Id.range kind table.size :=
  List.map_fst_zip (by simp [Id.range])

theorem size_foldl {α β : Type} {f : Array β → α → Array β}
    (h : ∀ table a, (f table a).size = table.size) (table : Array β) (as : List α) :
    (as.foldl f table).size = table.size := by
  induction as generalizing table with
  | nil => rfl
  | cons a as ih => rw [List.foldl_cons, ih, h]

namespace Model

variable {m : Model}

theorem sites_varUses (stmts : List (StmtId × Stmt)) (v : VarId) (way : Access) :
    (varUses stmts v).sites way =
      sitesWhere stmts fun s => s.access? = some way ∧ s.through = some v := by
  cases way <;>
  · simp only [VarUses.sites, varUses]
    refine congrArg (sitesWhere stmts) (funext fun s => ?_)
    cases s <;> simp [Stmt.access?, Stmt.through]

theorem sitesWhere_concat (stmts : List (StmtId × Stmt)) (e : StmtId × Stmt) (test : Stmt → Bool) :
    sitesWhere (stmts ++ [e]) test = sitesWhere stmts test ++ if test e.2 then [e.1] else [] := by
  unfold sitesWhere
  rw [List.filter_append, List.map_append]
  by_cases h : test e.2 = true
  · simp [h]
  · simp [h]

/-! ## The statements of one method -/

/-- A statement that goes through a variable is added to the uses of the variable. -/
def noteUses (uses : Array VarUses) (e : StmtId × Stmt) : Array VarUses :=
  match e.2.access?, e.2.through with
  | some way, some v => uses.modify v.index (·.push way e.1)
  | _, _ => uses

/-- A returned variable is added to those that are returned before it, unless it is among them. -/
def noteReturn (vs : List VarId) : Stmt → List VarId
  | .ret (some v) => if vs.contains v then vs else vs ++ [v]
  | _ => vs

/-- What is listed while the statements of a method are passed: the uses of all variables, and the
returned variables and the calls of the method. -/
structure Notes where
  uses : Array VarUses
  returnVars : List VarId := []
  callSites : List StmtId := []

def Notes.note (n : Notes) (e : StmtId × Stmt) : Notes where
  uses := noteUses n.uses e
  returnVars := noteReturn n.returnVars e.2
  callSites := if e.2.call?.isSome then n.callSites ++ [e.1] else n.callSites

theorem size_noteUses (uses : Array VarUses) (e : StmtId × Stmt) :
    (noteUses uses e).size = uses.size := by
  unfold noteUses
  split
  · exact Array.size_modify
  · rfl

/-- A statement is added for the variable and the way in which it goes through it, and for no other
variable or way. -/
theorem sites_noteUses (uses : Array VarUses) (e : StmtId × Stmt) (v : VarId) (way : Access) :
    (noteUses uses e)[v.index]?.map (·.sites way) = uses[v.index]?.map fun u => u.sites way ++
      if e.2.access? = some way ∧ e.2.through = some v then [e.1] else [] := by
  unfold noteUses
  split
  · next way' w hway hw =>
    rw [hway, hw, Array.getElem?_modify]
    by_cases hv : w = v
    · subst hv
      rw [if_pos rfl, Option.map_map]
      refine congrArg (Option.map · _) (funext fun u => ?_)
      simp [VarUses.sites_push]
    · have hindex : w.index ≠ v.index := fun h => hv (congrArg Id.mk h)
      simp [hv, hindex]
  · next hnot =>
    have hnone : ¬(e.2.access? = some way ∧ e.2.through = some v) := fun h => hnot _ _ h.1 h.2
    simp [hnone]

theorem sites_foldl_noteUses (uses : Array VarUses) (stmts : List (StmtId × Stmt)) (v : VarId)
    (way : Access) :
    (stmts.foldl noteUses uses)[v.index]?.map (·.sites way) =
      uses[v.index]?.map fun u => u.sites way ++
        sitesWhere stmts fun s => s.access? = some way ∧ s.through = some v := by
  induction stmts using List.reverseRecOn with
  | nil => simp [sitesWhere]
  | append_singleton stmts e ih =>
    rw [List.foldl_append, List.foldl_cons, List.foldl_nil, sites_noteUses, sitesWhere_concat]
    obtain hnone | ⟨u, hu⟩ := Option.eq_none_or_eq_some uses[v.index]?
    · rw [hnone, Option.map_none, Option.map_eq_none_iff] at ih
      rw [hnone, ih]
      rfl
    · rw [hu, Option.map_some] at ih
      obtain ⟨u', hu', hsites⟩ := Option.map_eq_some_iff.1 ih
      rw [hu, hu', Option.map_some, Option.map_some, hsites, List.append_assoc]
      simp

theorem uses_foldl_note (n : Notes) (stmts : List (StmtId × Stmt)) :
    (stmts.foldl Notes.note n).uses = stmts.foldl noteUses n.uses :=
  (List.foldl_hom Notes.uses fun _ _ => rfl).symm

theorem callSites_foldl_note (uses : Array VarUses) (stmts : List (StmtId × Stmt)) :
    (stmts.foldl Notes.note { uses }).callSites = sitesWhere stmts (·.call?.isSome) := by
  induction stmts using List.reverseRecOn with
  | nil => rfl
  | append_singleton stmts e ih =>
    rw [List.foldl_append, List.foldl_cons, List.foldl_nil, sitesWhere_concat, ← ih]
    show (if _ then _ else _) = _
    split <;> simp

theorem returnedVars_concat (stmts : List (StmtId × Stmt)) (e : StmtId × Stmt) :
    returnedVars (stmts ++ [e]) = noteReturn (returnedVars stmts) e.2 := by
  obtain ⟨site, s⟩ := e
  unfold returnedVars
  rw [List.filterMap_append]
  cases s with
  | ret value =>
    cases value with
    | none => simp [noteReturn]
    | some v =>
      simp only [List.filterMap_cons, List.filterMap_nil, Roster.ofList_concat,
        Roster.toList_insert, Roster.contains_iff, noteReturn, List.contains_iff_mem]
  | _ => simp [noteReturn]

theorem returnVars_foldl_note (uses : Array VarUses) (stmts : List (StmtId × Stmt)) :
    (stmts.foldl Notes.note { uses }).returnVars = returnedVars stmts := by
  induction stmts using List.reverseRecOn with
  | nil => rfl
  | append_singleton stmts e ih =>
    rw [returnedVars_concat, ← ih, List.foldl_append]
    rfl

/-! ## All methods -/

/-- What is listed while the methods are passed: the variables of the methods that are still to
come, the uses of all variables, and the methods that have been passed. -/
structure Tables where
  vars : Array (List VarId)
  uses : Array VarUses
  methods : Array Method := #[]

/-- Pass a method and its statements. The variables that are listed for it are handed over. -/
def Tables.add (t : Tables) (e : MethodId × MethodDecl) : Tables :=
  let n := (e.2.stmts e.1).foldl Notes.note { uses := t.uses }
  { vars := t.vars.setIfInBounds e.1.index []
    uses := n.uses
    methods := t.methods.push
      { id := e.1
        decl := e.2
        returnVars := n.returnVars
        vars := t.vars[e.1.index]?.getD []
        callSites := n.callSites } }

/-- List each variable for the method that declares it. -/
def listVars (m : Model) : Array (List VarId) :=
  m.varEntries.foldl (fun rows e => rows.modify e.2.method.index (· ++ [e.1]))
    (Array.replicate m.methods.size [])

/-- The tables before the first method is passed. -/
def blank (m : Model) : Tables where
  vars := m.listVars
  uses := Array.replicate m.vars.size default

/-- Pass all methods. -/
def tabulate (m : Model) : Tables := m.methodEntries.foldl Tables.add m.blank

theorem getElem?_foldl_modify {entries : List (VarId × VarDecl)} {rows : Array (List VarId)}
    {id : MethodId} :
    (entries.foldl (fun rows e => rows.modify e.2.method.index (· ++ [e.1])) rows)[id.index]? =
      rows[id.index]?.map (· ++ entries.filterMap fun (v, d) =>
        if d.method = id then some v else none) := by
  induction entries generalizing rows with
  | nil => simp
  | cons e entries ih =>
    rw [List.foldl_cons, ih, Array.getElem?_modify]
    by_cases h : e.2.method = id
    · subst h
      rw [if_pos rfl, Option.map_map]
      refine congrArg (Option.map · _) (funext fun row => ?_)
      simp
    · have hindex : e.2.method.index ≠ id.index := fun heq => h (congrArg Id.mk heq)
      simp [h, hindex]

theorem getElem?_listVars {id : MethodId} (h : id.index < m.methods.size) :
    m.listVars[id.index]? = some (m.varEntries.filterMap fun (v, d) =>
      if d.method = id then some v else none) := by
  rw [listVars, getElem?_foldl_modify, Array.getElem?_replicate, if_pos h]
  rfl

theorem methodEntries_nodup (m : Model) : (m.methodEntries.map Prod.fst).Nodup := by
  have hids : m.methodEntries.map Prod.fst = m.methodIds := Id.map_fst_range_zip m.methods
  rw [hids]
  exact Id.nodup_of_ascending (Id.range_ascending .methods m.methods.size)

/-- The method that is added for an entry of the table of methods. -/
def listed (vars : Array (List VarId)) (e : MethodId × MethodDecl) : Method where
  id := e.1
  decl := e.2
  returnVars := returnedVars (e.2.stmts e.1)
  vars := vars[e.1.index]?.getD []
  callSites := sitesWhere (e.2.stmts e.1) (·.call?.isSome)

theorem methods_add (t : Tables) (e : MethodId × MethodDecl) :
    (t.add e).methods = t.methods.push (listed t.vars e) := by
  simp only [Tables.add, listed, returnVars_foldl_note, callSites_foldl_note]

theorem methods_foldl_add (t : Tables) {entries : List (MethodId × MethodDecl)}
    (h : (entries.map Prod.fst).Nodup) :
    (entries.foldl Tables.add t).methods = t.methods ++ (entries.map (listed t.vars)).toArray := by
  induction entries generalizing t with
  | nil => simp
  | cons e entries ih =>
    rw [List.map_cons, List.nodup_cons] at h
    -- Handing over the variables of one method leaves those of the methods to come.
    have hothers : entries.map (listed (t.add e).vars) = entries.map (listed t.vars) := by
      refine List.map_congr_left fun e' he' => ?_
      have hne : e.1.index ≠ e'.1.index := fun heq =>
        h.1 (List.mem_map.2 ⟨e', he', congrArg Id.mk heq.symm⟩)
      simp [listed, Tables.add, Array.getElem?_setIfInBounds_ne hne]
    rw [List.foldl_cons, ih _ h.2, hothers, methods_add]
    simp

theorem methods_tabulate (m : Model) : m.tabulate.methods = (Program.index m).methods := by
  rw [tabulate, methods_foldl_add _ m.methodEntries_nodup]
  have hentries : m.methodEntries.map (listed m.listVars) =
      m.methodEntries.map fun e => m.indexedMethod e.1 e.2 := by
    refine List.map_congr_left fun e he => ?_
    have hlt := (Array.getElem?_eq_some_iff.1 (mem_methodEntries.1 he)).1
    simp only [listed, indexedMethod, getElem?_listVars hlt, Option.getD_some]
  show #[] ++ (m.methodEntries.map (listed m.listVars)).toArray = _
  rw [hentries, Array.empty_append]
  rfl

theorem uses_tabulate (m : Model) : m.tabulate.uses =
    (m.methodEntries.flatMap fun e => e.2.stmts e.1).foldl noteUses
      (Array.replicate m.vars.size default) := by
  rw [List.foldl_flatMap]
  refine (List.foldl_hom Tables.uses fun t e => ?_).symm
  exact (uses_foldl_note { uses := t.uses } (e.2.stmts e.1)).symm

theorem sitesWhere_flatMap {α : Type} (as : List α) (f : α → List (StmtId × Stmt))
    (test : Stmt → Bool) :
    sitesWhere (as.flatMap f) test = as.flatMap fun a => sitesWhere (f a) test := by
  simp only [sitesWhere, List.filter_flatMap, List.map_flatMap]

/-- Only the method that declares a variable has statements that go through it. -/
theorem WellFormed.sitesWhere_through (h : m.WellFormed) {v : VarId} {id : MethodId}
    {d : MethodDecl} (hv : m.HasVar id v) (hd : m.methods[id.index]? = some d) (way : Access) :
    sitesWhere (m.methodEntries.flatMap fun e => e.2.stmts e.1)
        (fun s => s.access? = some way ∧ s.through = some v) =
      sitesWhere (d.stmts id) fun s => s.access? = some way ∧ s.through = some v := by
  rw [sitesWhere_flatMap]
  refine flatMap_eq_of_forall_ne (a := (id, d)) m.methodEntries_nodup.of_map
    (mem_methodEntries.2 hd) ?_
  rintro ⟨id', d'⟩ hentry hne
  refine List.eq_nil_iff_forall_not_mem.2 fun site hsite => hne ?_
  obtain ⟨s, hs, htest⟩ := mem_sitesWhere.1 hsite
  have hd' := mem_methodEntries.1 hentry
  have hthrough := (of_decide_eq_true htest).2
  have hbody := Array.mem_of_getElem? (mem_stmts.1 hs).2
  have hv' := (h.methods hd').vars s hbody v
    (List.mem_append_right _ (Stmt.mem_used_of_through hthrough))
  obtain ⟨e, he, rfl⟩ := hv
  obtain ⟨e', he', rfl⟩ := hv'
  cases he.symm.trans he'
  cases hd.symm.trans hd'
  rfl

theorem WellFormed.uses_tabulate_eq (h : m.WellFormed) :
    m.tabulate.uses = (Program.index m).uses := by
  refine Array.ext_getElem? fun i => ?_
  have hsites := sites_foldl_noteUses (Array.replicate m.vars.size default)
    (m.methodEntries.flatMap fun e => e.2.stmts e.1) ⟨i⟩
  rw [uses_tabulate, Program.getElem?_uses_index]
  cases hd : m.vars[i]? with
  | none =>
    have hblank : (Array.replicate m.vars.size (default : VarUses))[i]? = none := by
      rw [Array.getElem?_replicate, if_neg (Array.getElem?_eq_none_iff.1 hd).not_gt]
    simpa [hblank] using hsites .invoke
  | some d =>
    have hblank : (Array.replicate m.vars.size (default : VarUses))[i]? = some default := by
      rw [Array.getElem?_replicate, if_pos (Array.getElem?_eq_some_iff.1 hd).1]
    simp only [hblank, Option.map_some] at hsites
    obtain ⟨u, hu, -⟩ := Option.map_eq_some_iff.1 (hsites .invoke)
    have hmethod := Array.getElem?_eq_getElem (h.tables.vars d (Array.mem_of_getElem? hd)).1
    rw [hu, Option.map_some, hmethod]
    refine congrArg some (VarUses.ext_sites fun way => ?_)
    have hway := hsites way
    rw [hu, Option.map_some, Option.some.injEq] at hway
    rw [hway, h.sitesWhere_through ⟨d, hd, rfl⟩ hmethod]
    show _ = (varUses _ _).sites way
    rw [sites_varUses]
    cases way <;> rfl

/-- The pass fills the tables that describe the program. -/
theorem WellFormed.tabulate_eq (h : m.WellFormed) :
    Program.index m = ⟨m, .ofModel m, m.tabulate.methods, m.tabulate.uses⟩ := by
  rw [h.uses_tabulate_eq, methods_tabulate]
  rfl

end Model

end ObjectFlow
