import ObjectFlow.Collection.Roster
import ObjectFlow.Program.Id

/-!
# The flow between pointers

An edge from one pointer to another says that whatever the first may point to the second may point
to as well. Edges are kept in the order of their arrival and, for quick access, by source and by
target; that the three agree is part of the type.
-/

namespace ObjectFlow

open Std

/-- The targets of the edges of a list that start at a pointer. -/
def targetsIn (edges : List (PointerId × PointerId)) (p : PointerId) : List PointerId :=
  (edges.filter (·.1 = p)).map (·.2)

/-- The sources of the edges of a list that end at a pointer. -/
def sourcesIn (edges : List (PointerId × PointerId)) (p : PointerId) : List PointerId :=
  (edges.filter (·.2 = p)).map (·.1)

/-- The edges along which objects flow between pointers. -/
structure FlowEdges where
  /-- Every edge, in the order of arrival. -/
  edges : Roster (PointerId × PointerId)
  /-- The targets of the edges from each pointer, the last one first. -/
  targets : ExtTreeMap PointerId (List PointerId)
  /-- The sources of the edges to each pointer, the last one first. -/
  sources : ExtTreeMap PointerId (List PointerId)
  targets_eq : ∀ p : PointerId, (targets.getD p []).reverse = targetsIn edges.toList p
  sources_eq : ∀ p : PointerId, (sources.getD p []).reverse = sourcesIn edges.toList p

namespace FlowEdges

def empty : FlowEdges where
  edges := ∅
  targets := ∅
  sources := ∅
  targets_eq p := by simp [targetsIn]
  sources_eq p := by simp [sourcesIn]

instance : EmptyCollection FlowEdges := ⟨empty⟩

instance : Inhabited FlowEdges := ⟨∅⟩

def contains (g : FlowEdges) (source target : PointerId) : Bool := g.edges.contains (source, target)

/-- Add an edge; one that is present already is not added again. -/
def insert (g : FlowEdges) (source target : PointerId) : FlowEdges :=
  if h : g.edges.contains (source, target) then g
  else
    { edges := g.edges.insert (source, target)
      targets := g.targets.insert source (target :: g.targets.getD source [])
      sources := g.sources.insert target (source :: g.sources.getD target [])
      targets_eq := fun p => by
        have hp := g.targets_eq p
        rw [ExtTreeMap.getD_insert, Roster.toList_insert, if_neg h]
        simp only [LawfulEqOrd.compare_eq_iff_eq, targetsIn, List.filter_append, List.map_append]
          at hp ⊢
        by_cases hs : source = p
        · subst hs
          simp [hp]
        · simp [hs, hp]
      sources_eq := fun p => by
        have hp := g.sources_eq p
        rw [ExtTreeMap.getD_insert, Roster.toList_insert, if_neg h]
        simp only [LawfulEqOrd.compare_eq_iff_eq, sourcesIn, List.filter_append, List.map_append]
          at hp ⊢
        by_cases ht : target = p
        · subst ht
          simp [hp]
        · simp [ht, hp] }

/-- Add an edge, and say whether it is new. -/
def add (g : FlowEdges) (e : PointerId × PointerId) : Bool × FlowEdges :=
  (!g.contains e.1 e.2, g.insert e.1 e.2)

/-- The targets of the edges from a pointer, in the order of arrival. -/
def succs (g : FlowEdges) (p : PointerId) : List PointerId := (g.targets.getD p []).reverse

/-- The sources of the edges to a pointer, in the order of arrival. -/
def preds (g : FlowEdges) (p : PointerId) : List PointerId := (g.sources.getD p []).reverse

/-- Every edge, by ascending source and then in the order of arrival. -/
def toList (g : FlowEdges) : List (PointerId × PointerId) :=
  g.targets.toList.flatMap fun (source, targets) => targets.reverse.map (source, ·)

def size (g : FlowEdges) : Nat := g.edges.size

/-! ## The three views -/

theorem contains_iff {g : FlowEdges} {s t : PointerId} :
    g.contains s t = true ↔ (s, t) ∈ g.edges.toList :=
  Roster.contains_iff

theorem succs_eq (g : FlowEdges) (p : PointerId) : g.succs p = targetsIn g.edges.toList p :=
  g.targets_eq p

theorem preds_eq (g : FlowEdges) (p : PointerId) : g.preds p = sourcesIn g.edges.toList p :=
  g.sources_eq p

theorem edges_insert (g : FlowEdges) (s t : PointerId) :
    (g.insert s t).edges = g.edges.insert (s, t) := by
  unfold insert
  split
  · next h => exact (Roster.insert_of_contains h).symm
  · rfl

end FlowEdges

end ObjectFlow
