import ObjectFlow.Collection.Roster
import ObjectFlow.Program.Statement

/-!
# Call graphs

A call graph says which methods may run and which calls lead to which methods. Sites and methods are
of any types, so that they may carry a calling context. A call graph only grows, and keeps methods
and edges in the order of their discovery.
-/

namespace ObjectFlow

variable {σ μ σ' μ' : Type}

/-- A call at a site may lead to a method. -/
structure CallEdge (σ μ : Type) where
  kind : CallKind
  site : σ
  callee : μ
deriving DecidableEq, Repr, Inhabited

instance [Keyed σ] [Keyed μ] : Keyed (CallEdge σ μ) where
  key e := Keyed.key ((e.kind, e.site), e.callee)
  key_injective {a b} h := by
    have h := Keyed.key_injective h
    cases a; cases b
    simp_all

/-- Which methods may run, and which calls lead to which methods. -/
structure CallGraph (σ μ : Type) [Keyed σ] [Keyed μ] where
  /-- The methods where execution may start. -/
  entries : Roster μ := ∅
  /-- The methods that may run. -/
  reachable : Roster μ := ∅
  edges : Roster (CallEdge σ μ) := ∅

namespace CallGraph

variable [Keyed σ] [Keyed μ] [Keyed σ'] [Keyed μ']

instance : Inhabited (CallGraph σ μ) := ⟨{}⟩

/-- Let execution start at a method. That does not make it reachable. -/
def addEntry (g : CallGraph σ μ) (m : μ) : CallGraph σ μ := { g with entries := g.entries.insert m }

/-- Make a method reachable, and say whether it was not so before. -/
def addReachable (g : CallGraph σ μ) (m : μ) : Bool × CallGraph σ μ :=
  (!g.reachable.contains m, { g with reachable := g.reachable.insert m })

/-- Add an edge, and say whether it is new. That does not make the callee reachable. -/
def addEdge (g : CallGraph σ μ) (e : CallEdge σ μ) : Bool × CallGraph σ μ :=
  (!g.edges.contains e, { g with edges := g.edges.insert e })

def isReachable (g : CallGraph σ μ) (m : μ) : Bool := g.reachable.contains m

def hasEdge (g : CallGraph σ μ) (e : CallEdge σ μ) : Bool := g.edges.contains e

/-- The callees of a site, once for each kind of call that leads there. -/
def callees [DecidableEq σ] (g : CallGraph σ μ) (site : σ) : List μ :=
  (g.edges.toList.filter (·.site = site)).map (·.callee)

/-- The sites that lead to a method, once for each kind of call that does. -/
def callers [DecidableEq μ] (g : CallGraph σ μ) (m : μ) : List σ :=
  (g.edges.toList.filter (·.callee = m)).map (·.site)

/-- The image of a call graph, in which sites and methods with the same image have become one. -/
def project (g : CallGraph σ μ) (onSite : σ → σ') (onMethod : μ → μ') : CallGraph σ' μ' where
  entries := .ofList (g.entries.toList.map onMethod)
  reachable := .ofList (g.reachable.toList.map onMethod)
  edges := .ofList (g.edges.toList.map fun e => ⟨e.kind, onSite e.site, onMethod e.callee⟩)

end CallGraph

end ObjectFlow
