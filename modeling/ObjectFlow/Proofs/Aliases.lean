import ObjectFlow.Proofs.Confluence
import ObjectFlow.Proofs.Graphs
import ObjectFlow.Proofs.HeapFacts
import ObjectFlow.Proofs.Results

/-!
# Who may point to what

The result of a points-to analysis fits the program (`Result.Coherent`): what it calls reachable are
methods, and a variable that points to something belongs to a reachable method. The aliases that are
read off such a result are exact (`Aliasing.Exact`), so the loads listed for a cell are loads in
reachable methods, and every load that may read the cell is among them (`exists_loadsOf`).
-/

namespace ObjectFlow

open Std

namespace Program

variable {p : Program} {m m' : MethodId} {v : VarId}

theorem Declares.inj (h : p.Declares m v) (h' : p.Declares m' v) : m = m' := by
  obtain ⟨d, hd, rfl⟩ := h
  obtain ⟨d', hd', rfl⟩ := h'
  rw [hd] at hd'
  cases hd'
  rfl

/-- The statements at which a variable has a certain use are found wherever they are. -/
theorem mem_sitesWhere (hp : p.Accepted) {method : Method} (hv : p.Declares m v)
    (hm : p.method m = .ok method) {test : Stmt → Bool} (htest : ∀ s, test s = true → v ∈ s.used)
    {site : StmtId} :
    site ∈ Model.sitesWhere method.stmts test ↔ ∃ s, p.stmt site = .ok s ∧ test s = true := by
  simp only [Model.mem_sitesWhere, mem_stmts hp hm]
  constructor
  · rintro ⟨s, ⟨-, hst⟩, ht⟩
    exact ⟨s, hst, ht⟩
  · rintro ⟨s, hst, ht⟩
    have hdecl := declares_of_stmt hp hst (List.mem_append_right _ (htest s ht))
    exact ⟨s, ⟨hdecl.inj hv, hst⟩, ht⟩

theorem mem_loadFields (hp : p.Accepted) {u : VarUses} (hu : p.varUses v = .ok u) {site : StmtId} :
    site ∈ u.loadFields ↔ ∃ lhs f, p.stmt site = .ok (.loadField lhs ⟨some v, f⟩) := by
  obtain ⟨m, method, hv, hm, rfl⟩ := (varUses_eq_ok hp).1 hu
  simp only [Model.varUses]
  refine (mem_sitesWhere hp hv hm fun s hs => ?_).trans ⟨?_, ?_⟩
  · split at hs
    · simp_all [Stmt.used]
    · cases hs
  · rintro ⟨s, hst, hs⟩
    split at hs
    · next lhs access =>
      obtain ⟨base, f⟩ := access
      obtain rfl := of_decide_eq_true hs
      exact ⟨lhs, f, hst⟩
    · cases hs
  · rintro ⟨lhs, f, hst⟩
    exact ⟨_, hst, decide_eq_true rfl⟩

theorem mem_loadArrays (hp : p.Accepted) {u : VarUses} (hu : p.varUses v = .ok u) {site : StmtId} :
    site ∈ u.loadArrays ↔ ∃ lhs index, p.stmt site = .ok (.loadArray lhs v index) := by
  obtain ⟨m, method, hv, hm, rfl⟩ := (varUses_eq_ok hp).1 hu
  simp only [Model.varUses]
  refine (mem_sitesWhere hp hv hm fun s hs => ?_).trans ⟨?_, ?_⟩
  · split at hs
    · simp_all [Stmt.used]
    · cases hs
  · rintro ⟨s, hst, hs⟩
    split at hs
    · next lhs base index =>
      obtain rfl := of_decide_eq_true hs
      exact ⟨lhs, index, hst⟩
    · cases hs
  · rintro ⟨lhs, index, hst⟩
    exact ⟨_, hst, decide_eq_true rfl⟩

end Program

namespace PointsTo

/-- What a result says fits the program. -/
structure Result.Coherent (p : Program) (r : Result) : Prop where
  entries : r.plainCalls.entries.toList = [p.entry]
  entry : p.entry ∈ r.plainCalls.reachable.toList
  methods : ∀ {m}, m ∈ r.plainCalls.reachable.toList → ∃ method, p.method m = .ok method
  callees : ∀ {site m}, m ∈ r.plainCalls.callees site → m ∈ r.plainCalls.reachable.toList
  holder : ∀ {v o}, o ∈ r.pointsTo v → ∃ m ∈ r.plainCalls.reachable.toList, p.Declares m v
  object_lt : ∀ {v o}, o ∈ r.pointsTo v → o.index < r.arena.objects.size

namespace State

variable {p : Program} {how : Sensitivity} {s : State}

theorem coherent_of_reaches (hp : p.Accepted) (hr : Reaches p how noExtra s)
    (hend : s.pending.isEmpty = true) (metrics : Bool) :
    (Result.ofState s metrics).Coherent p := by
  have hc := closed_of_reaches hp hr hend
  have hholds : ∀ {v o}, o ∈ (Result.ofState s metrics).pointsTo v →
      ∃ c h x, s.arena.Recalls c h ∧ s.arena.Spells o x ∧
        Derives p how [] (.holds (.var h v) x) := by
    intro v o ho
    obtain ⟨c, i, hi, hio⟩ := Result.mem_pointsTo.1 ho
    obtain ⟨f, hf, hd⟩ := grounded_of_noExtra hp hr (.holds i o) (Or.inl hio)
    cases hf with
    | holds hpoints hspells =>
      obtain ⟨y, hy, hnames⟩ := hpoints
      rw [hi] at hy
      cases hy
      cases hnames with
      | var _ hrecalls => exact ⟨c, _, _, hrecalls, hspells, hd⟩
  refine ⟨?_, ?_, fun {m} hm => ?_, fun {site m} hm => ?_, fun {v o} ho => ?_, fun {v o} ho => ?_⟩
  · obtain ⟨c, hentries⟩ := entries_of_reaches hp hr
    show (Roster.ofList (s.calls.entries.toList.map (·.2))).toList = _
    rw [hentries]
    rfl
  · obtain ⟨c, -, hentry⟩ := hc.entry
    exact Result.mem_reachable.2 ⟨c, hentry⟩
  · obtain ⟨c, hm⟩ := Result.mem_reachable.1 hm
    exact (grounded_of_noExtra hp hr).method_of_reachable hp hm
  · obtain ⟨kind, c, d, he⟩ := Result.mem_callees.1 hm
    exact Result.mem_reachable.2 ⟨d, hc.entered he⟩
  · obtain ⟨c, h, x, -, -, hd⟩ := hholds ho
    obtain ⟨⟨m, hdecl, hreach⟩, -⟩ := hd.sensible hp
    obtain ⟨c', -, hm⟩ := shows_reachable.1 ((shows_iff_derives_of_isEmpty hp hr hend).2 hreach)
    exact ⟨m, Result.mem_reachable.2 ⟨c', hm⟩, hdecl⟩
  · obtain ⟨c, h, x, -, hspells, -⟩ := hholds ho
    obtain ⟨object, hobject, -⟩ := Arena.spells_iff.1 hspells
    have hget := orUnknown_eq_ok.1 hobject
    rw [Roster.get?_eq_getElem?] at hget
    exact (List.getElem?_eq_some_iff.1 hget).1

end State

theorem Result.IsOutcome.coherent {p : Program} {r : Result} (hr : r.IsOutcome p)
    (hp : p.Accepted) : r.Coherent p := by
  obtain ⟨how, s, metrics, hs, hend, rfl⟩ := hr
  exact State.coherent_of_reaches hp hs hend metrics

end PointsTo

namespace Constant

open PointsTo

variable {p : Program} {r : Result} {a : Aliasing}

/-- The aliases are those of a result, and static loads are listed where methods are reachable. -/
structure Aliasing.Exact (p : Program) (r : Result) (a : Aliasing) : Prop where
  mem_pointsTo : ∀ {v o}, o ∈ a.pointsTo v ↔ o ∈ r.pointsTo v
  mem_holders : ∀ {v o}, v ∈ a.holders.getD o [] ↔ o ∈ a.pointsTo v
  mem_staticLoads : ∀ {f site}, site ∈ a.staticLoads.getD f [] ↔
    site.method ∈ r.plainCalls.reachable.toList ∧
      ∃ lhs, p.stmt site = .ok (.loadField lhs ⟨none, f⟩)

theorem staticLoad?_eq_some {s : Stmt} {f : FieldId} :
    Aliasing.staticLoad? s = some f ↔ ∃ lhs, s = .loadField lhs ⟨none, f⟩ := by
  constructor
  · intro h
    unfold Aliasing.staticLoad? at h
    split at h
    · cases h
      exact ⟨_, rfl⟩
    · cases h
  · rintro ⟨lhs, rfl⟩
    rfl

theorem exists_ofResult (hp : p.Accepted) (hr : r.Coherent p) :
    ∃ a, Aliasing.ofResult p r = .ok a ∧ a.Exact p r := by
  obtain ⟨methods, hmethods⟩ := exists_mapM fun m => hr.methods (m := m)
  have hpoints : ∀ {v o},
      o ∈ (ExtTreeMap.ofList (r.vars.map fun v => (v, r.pointsTo v))).getD v ∅ ↔
        o ∈ r.pointsTo v := by
    intro v o
    rw [ExtTreeMap.getD_eq_getD_getElem?, ExtTreeMap.ofList_eq_insertMany_empty,
      getElem?_insertMany_map]
    split
    · rfl
    · next hv => simpa using mt Result.mem_vars_of_mem_pointsTo hv
  refine ⟨_, bind_eq_ok.2 ⟨methods, hmethods, rfl⟩, hpoints, fun {v o} => ?_, fun {f site} => ?_⟩
  · refine Iff.trans ?_ hpoints.symm
    rw [mem_map_groupBy]
    simp only [List.mem_flatMap, List.mem_map]
    constructor
    · rintro ⟨_, ⟨_, ⟨w, -, rfl⟩, o', ho', rfl⟩, rfl, rfl⟩
      exact ExtTreeSet.mem_toList.1 ho'
    · intro ho
      exact ⟨(v, o), ⟨(v, r.pointsTo v), ⟨v, Result.mem_vars_of_mem_pointsTo ho, rfl⟩, o,
        ExtTreeSet.mem_toList.2 ho, rfl⟩, rfl, rfl⟩
  · rw [mem_map_groupBy]
    simp only [List.mem_flatMap, List.mem_filterMap, Option.map_eq_some_iff, staticLoad?_eq_some]
    constructor
    · rintro ⟨_, ⟨method, hm, ⟨site', s⟩, hs, f', ⟨lhs, rfl⟩, rfl⟩, rfl, rfl⟩
      obtain ⟨m, hreach, hm⟩ := (mem_of_mapM hmethods).1 hm
      obtain ⟨hmethod, hst⟩ := (Program.mem_stmts hp hm).1 hs
      exact ⟨hmethod ▸ hreach, lhs, hst⟩
    · rintro ⟨hreach, lhs, hst⟩
      obtain ⟨method, hm⟩ := hr.methods hreach
      exact ⟨(f, site), ⟨method, (mem_of_mapM hmethods).2 ⟨_, hreach, hm⟩, (site, _),
        (Program.mem_stmts hp hm).2 ⟨rfl, hst⟩, f, ⟨lhs, rfl⟩, rfl⟩, rfl, rfl⟩

/-! ## The loads of a cell -/

section

variable (hp : p.Accepted) (hr : r.Coherent p) (ha : a.Exact p r)
include hp hr ha

/-- The uses of the variables that may point to an object. A list of such uses has what the lists of
the variables have. -/
theorem exists_uses (o : ObjId) :
    ∃ uses, (a.holders.getD o []).mapM p.varUses = .ok uses ∧
      ∀ {list : VarUses → List StmtId} {P : VarId → StmtId → Prop},
        (∀ {v u site}, p.varUses v = .ok u → (site ∈ list u ↔ P v site)) →
        ∀ site, site ∈ uses.flatMap list ↔ ∃ v, o ∈ a.pointsTo v ∧ P v site := by
  have hexists : ∀ v, o ∈ a.pointsTo v → ∃ u, p.varUses v = .ok u := by
    intro v ho
    obtain ⟨m, -, hdecl⟩ := hr.holder (ha.mem_pointsTo.1 ho)
    exact Program.exists_varUses hp hdecl
  obtain ⟨uses, huses⟩ := exists_mapM fun v (hv : v ∈ a.holders.getD o []) =>
    hexists v (ha.mem_holders.1 hv)
  refine ⟨uses, huses, fun {list P} hlist site => ?_⟩
  simp only [List.mem_flatMap, mem_of_mapM huses, ha.mem_holders]
  constructor
  · rintro ⟨u, ⟨v, ho, hu⟩, hsite⟩
    exact ⟨v, ho, (hlist hu).1 hsite⟩
  · rintro ⟨v, ho, hsite⟩
    obtain ⟨u, hu⟩ := hexists v ho
    exact ⟨u, ⟨v, ho, hu⟩, (hlist hu).2 hsite⟩

/-- A statement that uses a variable which points to something is in a reachable method. -/
theorem reachable_of_used {site : StmtId} {s : Stmt} {v : VarId} {o : ObjId}
    (hst : p.stmt site = .ok s) (hv : v ∈ s.used) (ho : o ∈ a.pointsTo v) :
    site.method ∈ r.plainCalls.reachable.toList := by
  obtain ⟨m, hm, hdecl⟩ := hr.holder (ha.mem_pointsTo.1 ho)
  have hsite := Program.declares_of_stmt hp hst (List.mem_append_right _ hv)
  exact hsite.inj hdecl ▸ hm

theorem exists_loadsOf (c : Cell) :
    ∃ loads, a.loadsOf p c = .ok loads ∧
      (∀ site ∈ loads, site.method ∈ r.plainCalls.reachable.toList ∧ ∃ s, p.stmt site = .ok s) ∧
      ∀ site s fact, site.method ∈ r.plainCalls.reachable.toList → p.stmt site = .ok s →
        Reads a fact s c → site ∈ loads := by
  cases c with
  | staticField f =>
    refine ⟨_, rfl, fun site hsite => ?_, fun site s fact hm hst hread => ?_⟩
    · obtain ⟨hm, lhs, hst⟩ := ha.mem_staticLoads.1 hsite
      exact ⟨hm, _, hst⟩
    · cases hread with
      | static lhs => exact ha.mem_staticLoads.2 ⟨hm, lhs, hst⟩
  | instanceField o f =>
    obtain ⟨uses, huses, hmem⟩ := exists_uses hp hr ha o
    have hload := hmem fun {v u site} hu => Program.mem_loadFields hp hu
    have hfilter : ∃ loads, a.loadsOf p (.instanceField o f) = .ok loads ∧ ∀ site, site ∈ loads ↔
        site ∈ uses.flatMap (·.loadFields) ∧
          ∃ lhs base, p.stmt site = .ok (.loadField lhs ⟨base, f⟩) := by
      simp only [Aliasing.loadsOf, huses, bind, Except.bind]
      refine exists_filterM fun site hsite => ?_
      obtain ⟨v, -, lhs, f', hst⟩ := (hload site).1 hsite
      refine ⟨_, by simp only [hst]; rfl, ?_⟩
      simp only [hst, decide_eq_true_eq, Except.ok.injEq, Stmt.loadField.injEq,
        FieldAccess.mk.injEq]
      exact ⟨fun h => ⟨lhs, some v, rfl, rfl, h⟩, fun ⟨_, _, _, _, h⟩ => h⟩
    obtain ⟨loads, hloads, hfiltered⟩ := hfilter
    refine ⟨loads, hloads, fun site hsite => ?_, fun site s fact hm hst hread => ?_⟩
    · obtain ⟨v, ho, lhs, f', hst⟩ := (hload site).1 ((hfiltered site).1 hsite).1
      exact ⟨reachable_of_used hp hr ha hst (by simp [Stmt.used]) ho, _, hst⟩
    · cases hread with
      | field ho =>
        exact (hfiltered site).2 ⟨(hload site).2 ⟨_, ho, _, _, hst⟩, _, _, hst⟩
  | element o i =>
    obtain ⟨uses, huses, hmem⟩ := exists_uses hp hr ha o
    have hload := hmem fun {v u site} hu => Program.mem_loadArrays hp hu
    refine ⟨_, bind_eq_ok.2 ⟨uses, huses, rfl⟩, fun site hsite => ?_,
      fun site s fact hm hst hread => ?_⟩
    · obtain ⟨v, ho, lhs, index, hst⟩ := (hload site).1 hsite
      exact ⟨reachable_of_used hp hr ha hst (by simp [Stmt.used]) ho, _, hst⟩
    · cases hread with
      | element ho hi => exact (hload site).2 ⟨_, ho, _, _, hst⟩

end

end Constant

end ObjectFlow
