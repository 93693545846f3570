import ObjectFlow.Proofs.CallChains

/-!
# What contexts of call sites remember

Where contexts remember call sites, a call pushes its site to the context of the caller, whatever
the receiver is. So a chain of calls from the entry determines the context at its end: it holds the
newest of the sites that the chain goes through, as many as the limit allows (`context_of_chain`).
Together with the chains to all reachable methods this says what such a context means, and what the
heap context of an object means follows from the method that allocates it.
-/

namespace ObjectFlow

theorem Recent.push_ofList {α : Type} (limit : Nat) (items : List α) (a : α) :
    (ofList limit items).push a = ofList limit (a :: items) := by
  refine Recent.ext rfl ?_
  cases limit with
  | zero => rfl
  | succ n => simp [List.take_take]

namespace PointsTo.State

variable {p : Program} {k : Nat} {extra : List (Place × Place)} {s : State}

/-- A callee runs in the context of its caller, extended by the site of the call. -/
theorem Grounded.context_callee (hg : s.Grounded p (.callSite k) extra)
    {e : CallEdge ContextSite ContextMethod} (he : e ∈ s.calls.edges.toList) {x : Context}
    (hx : s.arena.context e.site.1 = .ok x) :
    s.arena.context e.callee.1 = .ok (x.push (.site e.site.2)) := by
  obtain ⟨f, hres, hd⟩ := hg (.call e) he
  cases hres with
  | @call c h d h' kind site m hc hcallee =>
    have hh : h' = h.push (.site site) := by cases hd <;> rfl
    subst hh
    have htells := (hc.tells hx).push (Arena.originWithin_site site)
    obtain ⟨x', hx', htells'⟩ := hcallee
    obtain rfl := htells.inj htells'
    exact hx'

/-- The context at the end of a chain holds the newest of its sites. -/
theorem context_of_chain (hg : s.Grounded p (.callSite k) extra)
    (hentry : ∃ c, s.arena.context c = .ok (.empty k) ∧ s.calls.entries.toList = [(c, p.entry)])
    {sites : List ContextSite} {m : ContextMethod} (h : s.calls.Chain enclosing sites m) :
    s.arena.context m.1 = .ok (.ofList k (sites.map fun site => .site site.2)) := by
  induction h with
  | entry hm =>
    obtain ⟨c, hc, hentries⟩ := hentry
    rw [hentries] at hm
    obtain rfl := List.mem_singleton.1 hm
    exact hc
  | call _ he ih =>
    rw [hg.context_callee he ih, Recent.push_ofList]
    rfl

/-- **Meaning of call-site contexts.** Whenever a step has ended, each reachable method is at the
end of a chain of calls that starts at the entry method in the empty context, and its own context
holds the `k` newest sites of that chain, or all of them if there are fewer. An object has as heap
context the `k - 1` newest sites in some context in which its allocating method is reachable. -/
theorem callSite_contexts (hp : p.Accepted) (hs : Reaches p (.callSite k) anyExtra s) :
    (∃ c, s.arena.context c = .ok (.empty k) ∧ s.calls.entries.toList = [(c, p.entry)]) ∧
    (∀ c m, (c, m) ∈ s.calls.reachable.toList → ∃ sites, s.calls.Chain enclosing sites (c, m) ∧
      s.arena.context c = .ok (.ofList k (sites.map fun site => .site site.2))) ∧
    ∀ o x, s.arena.object o = .ok x → ∃ c context, (c, x.site.method) ∈ s.calls.reachable.toList ∧
      s.arena.context c = .ok context ∧
      s.arena.context x.context = .ok (context.newest (k - 1)) := by
  obtain ⟨extra, hextra⟩ := exists_extra hp hs
  have hg := grounded_of_reaches hp hextra
  have hanchored := anchored_of_reaches hp hs
  refine ⟨hanchored.entry, fun c m hm => ?_, fun o x ho => ?_⟩
  · obtain ⟨sites, hc⟩ := hanchored.linked (Or.inl hm)
    exact ⟨sites, hc, context_of_chain hg hanchored.entry hc⟩
  · obtain ⟨c, context, hm, hc, hheap⟩ := hanchored.objects ho
    -- The limit of the context, which the heap context is cut by, is known from a chain to it.
    obtain ⟨sites, hchain⟩ := hanchored.linked (Or.inl hm)
    have hremembers := context_of_chain hg hanchored.entry hchain
    rw [hc] at hremembers
    cases hremembers
    exact ⟨c, _, hm, hc, hheap⟩

/-- In `nesting` the method `grow` calls itself: after six steps it is reachable in a context that
no longer knows of `main`, though the chain of calls starts there. -/
theorem nesting_callSite_contexts :
    ∃ s, Reaches (.index Program.nesting) (.callSite 2) anyExtra s ∧
      (⟨7⟩, ⟨2⟩) ∈ s.calls.reachable.toList ∧
      s.arena.contexts.get? 7 = some (.ofList 2 [.site ⟨⟨2⟩, 1⟩, .site ⟨⟨2⟩, 1⟩]) ∧
      (∃ sites, s.calls.Chain enclosing sites (⟨7⟩, ⟨2⟩) ∧
        s.arena.context ⟨7⟩ = .ok (.ofList 2 (sites.map fun site => .site site.2))) ∧
      ∀ o x, s.arena.object o = .ok x → ∃ c context,
        (c, x.site.method) ∈ s.calls.reachable.toList ∧ s.arena.context c = .ok context ∧
        s.arena.context x.context = .ok (context.newest 1) := by
  obtain ⟨s, hs, htest⟩ := exists_reaches (.index Program.nesting) (.callSite 2) .fifo 100 6
    (fun s => decide ((⟨7⟩, ⟨2⟩) ∈ s.calls.reachable.toList ∧
      s.arena.contexts.get? 7 = some (.ofList 2 [.site ⟨⟨2⟩, 1⟩, .site ⟨⟨2⟩, 1⟩])))
    (by decide +kernel)
  obtain ⟨hm, hcontext⟩ := of_decide_eq_true htest
  obtain ⟨-, hmethods, hobjects⟩ := callSite_contexts Program.nesting_accepted hs
  exact ⟨s, hs, hm, hcontext, hmethods _ _ hm, hobjects⟩

end PointsTo.State

end ObjectFlow
