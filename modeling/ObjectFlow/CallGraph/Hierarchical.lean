import ObjectFlow.CallGraph.Basic
import ObjectFlow.Program.Basic

/-!
# The call graph that the class hierarchy allows

Every virtual call may lead to every method that dispatch finds below the class named in the call,
whether or not an object of such a class is ever made.
-/

namespace ObjectFlow.CallGraph

/-- The edges of the calls in a method, by site and then by callee. -/
def possibleCalls (p : Program) (m : MethodId) :
    Except Fault (List (CallEdge StmtId MethodId)) := do
  let sites ← (← p.method m).callSites.mapM fun site => do
    match ← p.invoke? site with
    | none => throw (.siteWithoutCall site)
    | some call =>
      return (← p.hierarchy.possibleCallees call).map fun callee => ⟨call.kind, site, callee⟩
  return sites.flatten

/-- The methods that calls from the entry may lead to, with the edges of their calls. -/
def hierarchical (p : Program) : Except Fault (CallGraph StmtId MethodId) := do
  let _ ← p.method p.entry
  let reachable ← reach p.methodIds
    (fun m => do return (← possibleCalls p m).map (·.callee)) p.entry
  let edges ← reachable.toList.mapM (possibleCalls p)
  return { entries := .ofList [p.entry], reachable, edges := .ofList edges.flatten }

end ObjectFlow.CallGraph
