import Mathlib.Order.Bounds.Basic
import ObjectFlow.Proofs.CallEdges
import ObjectFlow.Proofs.Coincidence

/-!
# The call graph of the hierarchy is the least one

The class hierarchy resolves a call to a list of possible callees. A set of methods is closed under
calls if it contains the entry method and the possible callees of all calls in its members. The
methods of the call graph of the hierarchy are the least such set: the search from the entry leaves
no call unfollowed, and it follows nothing but calls. The edges of the graph are the resolved calls
of these methods. They are listed by caller as the callers are found, by statement as the statements
stand in the body, and by callee in ascending order (`Precedes`), which leaves one way to list them.
-/

namespace ObjectFlow

/-! ## Lists that are put together -/

/-- Lists that come from the members of a list are put together. If each of them is in order and
each member says where it comes from, what comes from members in order is in order. -/
theorem pairwise_flatten_of_mapM {α β : Type} {f : α → Except Fault (List β)} (origin : β → α)
    {R : β → β → Prop} {as : List α} {lists : List (List β)} (h : as.mapM f = .ok lists)
    (has : as.Pairwise fun a a' => ∀ x y, origin x = a → origin y = a' → R x y)
    (hf : ∀ a ∈ as, ∀ l, f a = .ok l → l.Pairwise R ∧ ∀ x ∈ l, origin x = a) :
    lists.flatten.Pairwise R := by
  induction as generalizing lists with
  | nil =>
    obtain rfl := pure_eq_ok.1 h
    exact .nil
  | cons a as ih =>
    obtain ⟨l, ls, hl, hls, rfl⟩ := List.forall₂_cons_left_iff.1 (mapM_eq_ok.1 h)
    have hls := mapM_eq_ok.2 hls
    obtain ⟨hhead, htail⟩ := List.pairwise_cons.1 has
    obtain ⟨hpairs, horigin⟩ := hf a List.mem_cons_self l hl
    have hf' := fun a' ha' => hf a' (List.mem_cons_of_mem a ha')
    rw [List.flatten_cons, List.pairwise_append]
    refine ⟨hpairs, ih hls htail hf', fun x hx y hy => ?_⟩
    obtain ⟨l', hl', hy⟩ := List.mem_flatten.1 hy
    obtain ⟨a', ha', hfa'⟩ := (mem_of_mapM hls).1 hl'
    exact hhead a' ha' x y (horigin x hx) ((hf' a' ha' l' hfa').2 y hy)

/-- In a list without repetitions what comes first is found first. -/
theorem pairwise_idxOf {α : Type} [DecidableEq α] {as : List α} (h : as.Nodup) :
    as.Pairwise fun a b => as.idxOf a < as.idxOf b := by
  rw [List.pairwise_iff_getElem]
  intro i j hi hj hij
  rwa [h.idxOf_getElem i hi, h.idxOf_getElem j hj]

/-- Keys of one number are in the order of the numbers. -/
theorem lt_of_compare_singleton {m n : Nat} (h : compare [m] [n] = .lt) : m < n := by
  rw [List.compare_eq_compareLex, List.compareLex_cons_cons, List.compareLex_nil_nil,
    Ordering.then_eq] at h
  exact Nat.compare_eq_lt.1 h

namespace Program

variable {p : Program}

/-! ## Resolved calls -/

/-- The hierarchy resolves the call at a site to a method. -/
def CallsAt (p : Program) (site : StmtId) (kind : CallKind) (m : MethodId) : Prop :=
  ∃ call callees, p.stmt site = .ok (.invoke call) ∧ call.kind = kind ∧
    p.hierarchy.possibleCallees call = .ok callees ∧ m ∈ callees

/-- A set of methods contains the entry method and whatever its members call. -/
def ClosedUnderCalls (p : Program) (S : Set MethodId) : Prop :=
  p.entry ∈ S ∧ ∀ site kind m, site.method ∈ S → p.CallsAt site kind m → m ∈ S

theorem allowed_iff_callsAt (hp : p.Accepted) {e : CallEdge StmtId MethodId} :
    CallGraph.Allowed p e ↔ p.CallsAt e.site e.kind e.callee := by
  constructor
  · rintro ⟨call, hst, hkind, hmay⟩
    obtain ⟨callees, hcallees, hmem⟩ := exists_possibleCallees hp hst
    exact ⟨call, callees, hst, hkind, hcallees, (hmem _).2 hmay⟩
  · rintro ⟨call, callees, hst, hkind, hcallees, hm⟩
    obtain ⟨callees', hcallees', hmem⟩ := exists_possibleCallees hp hst
    rw [hcallees] at hcallees'
    cases hcallees'
    exact ⟨call, hst, hkind, (hmem _).1 hm⟩

theorem index_lt_of_compare {m m' : MethodId} (h : compare m m' = .lt) : m.index < m'.index :=
  lt_of_compare_singleton h

theorem possibleCallees_ascending {call : Invoke} {callees : List MethodId}
    (h : p.hierarchy.possibleCallees call = .ok callees) :
    callees.Pairwise (·.index < ·.index) := by
  have hdirect : ∀ found : Option MethodId, found.toList.Pairwise (·.index < ·.index) := by
    intro found
    cases found with
    | none => exact .nil
    | some m => exact List.pairwise_singleton _ m
  have hvirtual : p.hierarchy.virtualTargets call.target.owner call.target.subsignature =
      .ok callees → callees.Pairwise (·.index < ·.index) := by
    intro h
    obtain ⟨r, -, h⟩ := bind_eq_ok.1 h
    obtain ⟨found, -, h⟩ := bind_eq_ok.1 h
    obtain rfl := pure_eq_ok.1 h
    exact Std.ExtTreeSet.ordered_toList.imp index_lt_of_compare
  unfold Hierarchy.possibleCallees at h
  split at h
  · obtain ⟨found, -, h⟩ := bind_eq_ok.1 h
    obtain rfl := pure_eq_ok.1 h
    exact hdirect found
  · obtain ⟨found, -, h⟩ := bind_eq_ok.1 h
    obtain rfl := pure_eq_ok.1 h
    exact hdirect found
  · exact hvirtual h
  · exact hvirtual h

/-- Call sites are listed as they stand in the body. -/
theorem callSites_ascending (hp : p.Accepted) {m : MethodId} {method : Method}
    (hm : p.method m = .ok method) : method.callSites.Pairwise (·.index < ·.index) := by
  obtain ⟨d, -, rfl⟩ := (method_eq_ok hp).1 hm
  exact Model.sitesWhere_ascending d m (·.call?.isSome)

end Program

namespace CallGraph

variable {p : Program} {g : CallGraph StmtId MethodId}

/-- One edge comes before another: its caller has been found earlier, its statement stands earlier
in the same caller, or its callee has a smaller number at the same site. -/
def Precedes (found : List MethodId) (e e' : CallEdge StmtId MethodId) : Prop :=
  found.idxOf e.site.method < found.idxOf e'.site.method ∨
    e.site.method = e'.site.method ∧ e.site.index < e'.site.index ∨
    e.site = e'.site ∧ e.callee.index < e'.callee.index

theorem Precedes.ne {found : List MethodId} {e e' : CallEdge StmtId MethodId}
    (h : Precedes found e e') : e ≠ e' := by
  rintro rfl
  rcases h with h | ⟨-, h⟩ | ⟨-, h⟩ <;> exact Nat.lt_irrefl _ h

theorem possibleCalls_ordered (hp : p.Accepted) {m : MethodId}
    {calls : List (CallEdge StmtId MethodId)} (h : possibleCalls p m = .ok calls)
    (found : List MethodId) :
    calls.Pairwise (Precedes found) ∧ ∀ e ∈ calls, e.site.method = m := by
  have ⟨method, hm, h'⟩ := bind_eq_ok.1 h
  refine ⟨?_, fun e he => ?_⟩
  · obtain ⟨lists, hlists, h'⟩ := bind_eq_ok.1 h'
    obtain rfl := pure_eq_ok.1 h'
    refine pairwise_flatten_of_mapM CallEdge.site hlists ?_ fun site _ l hl => ?_
    · refine (Program.callSites_ascending hp hm).imp_of_mem fun {site site'} hs hs' hlt => ?_
      rintro e e' rfl rfl
      have hmethod := ((Program.mem_callSites hp hm).1 hs).1
      have hmethod' := ((Program.mem_callSites hp hm).1 hs').1
      exact Or.inr (Or.inl ⟨hmethod.trans hmethod'.symm, hlt⟩)
    · obtain ⟨r, -, hl⟩ := bind_eq_ok.1 hl
      cases r with
      | none => cases hl
      | some call =>
        obtain ⟨callees, hcallees, hl⟩ := bind_eq_ok.1 hl
        obtain rfl := pure_eq_ok.1 hl
        refine ⟨?_, by simp⟩
        rw [List.pairwise_map]
        exact (Program.possibleCallees_ascending hcallees).imp fun hlt => Or.inr (Or.inr ⟨rfl, hlt⟩)
  · obtain ⟨calls', hcalls, hmem⟩ := exists_possibleCalls hp hm
    rw [h] at hcalls
    cases hcalls
    exact ((hmem e).1 he).1

/-! ## The closure -/

/-- Nothing but calls leads out of a set of methods that is closed under calls. -/
theorem mem_of_links (hp : p.Accepted) {S : Set MethodId} (hS : p.ClosedUnderCalls S)
    {m m' : MethodId} (hm : m ∈ S)
    (h : Links (fun m => do return (← possibleCalls p m).map (·.callee)) m m') : m' ∈ S := by
  obtain ⟨callees, hcallees, hm'⟩ := h
  obtain ⟨calls, hcalls, hmap⟩ := bind_eq_ok.1 hcallees
  obtain rfl := pure_eq_ok.1 hmap
  obtain ⟨e, he, rfl⟩ := List.mem_map.1 hm'
  have ⟨method, hmethod, _⟩ := bind_eq_ok.1 hcalls
  obtain ⟨calls', hcalls', hmem⟩ := exists_possibleCalls hp hmethod
  rw [hcalls] at hcalls'
  cases hcalls'
  obtain ⟨rfl, hallowed⟩ := (hmem e).1 he
  exact hS.2 e.site e.kind e.callee hm ((Program.allowed_iff_callsAt hp).1 hallowed)

/-- The methods are found by a search from the entry, and the edges are those of their calls. -/
theorem hierarchical_eq_ok (h : hierarchical p = .ok g) :
    ∃ lists, reach p.methodIds (fun m => do return (← possibleCalls p m).map (·.callee)) p.entry =
        .ok g.reachable ∧ g.reachable.toList.mapM (possibleCalls p) = .ok lists ∧
      g.entries = .ofList [p.entry] ∧ g.edges = .ofList lists.flatten := by
  obtain ⟨entry, -, h⟩ := bind_eq_ok.1 h
  obtain ⟨r, hr, h⟩ := bind_eq_ok.1 h
  obtain ⟨lists, hlists, h⟩ := bind_eq_ok.1 h
  obtain rfl := pure_eq_ok.1 h
  exact ⟨lists, hr, hlists, rfl, rfl⟩

/-- The search finds nothing that a set closed under calls does not contain. -/
theorem reachable_subset (hp : p.Accepted) (h : hierarchical p = .ok g) {S : Set MethodId}
    (hS : p.ClosedUnderCalls S) : ∀ m ∈ g.reachable.toList, m ∈ S := by
  obtain ⟨-, hr, -⟩ := hierarchical_eq_ok h
  refine reachFrom_induction (fun m m' hm hlink => mem_of_links hp hS hm hlink) hr ?_ (by simp)
  intro m hm
  obtain rfl := List.mem_singleton.1 hm
  exact hS.1

/-- The edges are listed by caller, statement and callee. -/
theorem edges_ordered (hp : p.Accepted) (h : hierarchical p = .ok g) :
    g.edges.toList.Pairwise (Precedes g.reachable.toList) := by
  obtain ⟨lists, -, hlists, -, hedges⟩ := hierarchical_eq_ok h
  have hpairs : lists.flatten.Pairwise (Precedes g.reachable.toList) := by
    refine pairwise_flatten_of_mapM (·.site.method) hlists ?_ fun m _ calls hcalls =>
      possibleCalls_ordered hp hcalls g.reachable.toList
    refine (pairwise_idxOf g.reachable.nodup_toList).imp fun hlt => ?_
    rintro e e' rfl rfl
    exact Or.inl hlt
  rw [hedges, Roster.toList_ofList_of_nodup (hpairs.imp Precedes.ne)]
  exact hpairs

/-- The methods of a call graph are the least set that is closed under calls, and its edges are the
resolved calls of these methods, in order. -/
structure IsCallClosure (p : Program) (g : CallGraph StmtId MethodId) : Prop where
  entries : g.entries.toList = [p.entry]
  reachable : IsLeast {S | p.ClosedUnderCalls S} {m | m ∈ g.reachable.toList}
  nodup_reachable : g.reachable.toList.Nodup
  /-- Every call can be resolved. -/
  resolved : ∀ {site call}, p.stmt site = .ok (.invoke call) →
    ∃ callees, p.hierarchy.possibleCallees call = .ok callees
  edges : ∀ e, e ∈ g.edges.toList ↔
    e.site.method ∈ g.reachable.toList ∧ p.CallsAt e.site e.kind e.callee
  nodup_edges : g.edges.toList.Nodup
  ordered : g.edges.toList.Pairwise (Precedes g.reachable.toList)

theorem Follows.closedUnderCalls (hp : p.Accepted) (h : Follows p g) :
    p.ClosedUnderCalls {m | m ∈ g.reachable.toList} := by
  refine ⟨h.entry, fun site kind m hsite hcall => ?_⟩
  refine h.callees ⟨kind, site, m⟩ ((h.edges _).2 ⟨hsite, ?_⟩)
  exact (Program.allowed_iff_callsAt hp).2 hcall

/-- **The closure of calls.** For every accepted program the call graph of the hierarchy can be
built. Its methods are those that every set closed under calls contains, and its edges are their
resolved calls, each of them once and in order. -/
theorem hierarchical_isCallClosure (hp : p.Accepted) :
    ∃ g, hierarchical p = .ok g ∧ IsCallClosure p g := by
  obtain ⟨g, hg, hfollows⟩ := exists_follows hp
  obtain ⟨lists, -, -, hentries, -⟩ := hierarchical_eq_ok hg
  have hleast : IsLeast {S | p.ClosedUnderCalls S} {m | m ∈ g.reachable.toList} :=
    ⟨hfollows.closedUnderCalls hp, fun S hS => reachable_subset hp hg hS⟩
  refine ⟨g, hg, ?_, hleast, g.reachable.nodup_toList, fun hst => ?_, fun e => ?_,
    g.edges.nodup_toList, edges_ordered hp hg⟩
  · rw [hentries]
    rfl
  · obtain ⟨callees, hcallees, -⟩ := Program.exists_possibleCallees hp hst
    exact ⟨callees, hcallees⟩
  · rw [hfollows.edges, Program.allowed_iff_callsAt hp]

/-- The call in `shapes` leads to both methods that implement the one it names, which is abstract
and never called itself. -/
theorem shapes_isCallClosure :
    ∃ g, hierarchical (.index shapes) = .ok g ∧ g.reachable.toList = [⟨0⟩, ⟨2⟩, ⟨3⟩] ∧
      g.edges.toList = [⟨.interface, ⟨⟨0⟩, 1⟩, ⟨2⟩⟩, ⟨.interface, ⟨⟨0⟩, 1⟩, ⟨3⟩⟩] ∧
      IsCallClosure (.index shapes) g := by
  obtain ⟨g, hg, hclosure⟩ := hierarchical_isCallClosure shapes_accepted
  obtain ⟨g', hg', htest⟩ := exists_ok_of_any (hierarchical (.index shapes))
    (fun g => decide (g.reachable.toList = [⟨0⟩, ⟨2⟩, ⟨3⟩] ∧
      g.edges.toList = [⟨.interface, ⟨⟨0⟩, 1⟩, ⟨2⟩⟩, ⟨.interface, ⟨⟨0⟩, 1⟩, ⟨3⟩⟩]))
    (by decide +kernel)
  rw [hg] at hg'
  cases hg'
  obtain ⟨hreachable, hedges⟩ := of_decide_eq_true htest
  exact ⟨g, hg, hreachable, hedges, hclosure⟩

end CallGraph

end ObjectFlow
