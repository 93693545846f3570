import ObjectFlow.Constant.Interprocedural

/-!
# Reports

What the commands print about a finished analysis. Methods and call edges come in the order of their
discovery, variables by their numbers.
-/

namespace ObjectFlow.CommandLine

/-- Lines of text, each with its end. -/
def lines (ls : List String) : String := String.join (ls.map (· ++ "\n"))

/-- A heading with a rule of the same length below it. -/
def heading (title : String) : List String := [title, String.ofList (title.toList.map fun _ => '-')]

section PointsTo

open PointsTo

variable (p : Program) (r : Result)

def contextText (c : ContextId) : Except Fault String := do
  return toString (← r.arena.context c)

/-- A method in its context. -/
def methodText (m : ContextMethod) : Except Fault String := do
  return (← contextText r m.1) ++ " " ++ (← p.methodName m.2)

/-- A call edge with the contexts of both ends. -/
def edgeText (e : CallEdge ContextSite ContextMethod) : Except Fault String := do
  return (← contextText r e.site.1) ++ s!" {e.site.2} --{e.kind}--> " ++ (← methodText p r e.callee)

/-- An object with its heap context. -/
def objectText (o : ObjId) : Except Fault String := do
  let obj ← r.arena.object o
  return (← contextText r obj.context) ++ " " ++ toString obj

/-- What a variable may point to in a context; nothing is said if that is nothing. -/
def variableText? (v : VarId) (c : ContextId) : Except Fault (Option String) := do
  let objects := (r.objectsAt (.var c v)).toList
  if objects.isEmpty then return none
  let objects ← objects.mapM (objectText r)
  return some ((← contextText r c) ++ " " ++ (← p.varName v) ++ " --> \x7b"
    ++ ", ".intercalate objects ++ "\x7d")

/-- The methods and calls that were found, and what variables may point to. -/
def findings : Except Fault (List String) := do
  let methods ← r.calls.reachable.toList.mapM (methodText p r)
  let edges ← r.calls.edges.toList.mapM (edgeText p r)
  let vars ← r.vars.mapM fun v => (r.contextsOf v).filterMapM (variableText? p r v)
  return heading "reachable" ++ methods ++ [""] ++ heading "call_edges" ++ edges ++ [""]
    ++ heading "var_points_to" ++ vars.flatten

/-- The size of what was found. -/
def metricsLines (m : Metrics) : List String :=
  [""] ++ heading "metrics" ++
    [s!"reachable methods: {m.reachableMethods}", s!"call graph edges: {m.callEdges}",
      s!"pointers: {m.pointers}", s!"pointer flow edges: {m.flowEdges}", s!"objects: {m.objects}",
      s!"contexts: {m.contexts}", s!"points-to facts: {m.facts}"]

end PointsTo

/-- A definition with the value of its variable. -/
def definitionText (p : Program) (d : StmtId × VarId × Value) : Except Fault String := do
  return s!"{d.1} ⊢ " ++ (← p.varName d.2.1) ++ s!" = {d.2.2}"

/-- How many definitions there are, and how many of them give no constant. -/
def definitionMetrics (defs : List (StmtId × VarId × Value)) : List String :=
  let nacs := (defs.filter (·.2.2 = .nac)).length
  [""] ++ heading "metrics" ++ [s!"nacs: {nacs}", s!"definitions: {defs.length}"]

end ObjectFlow.CommandLine
