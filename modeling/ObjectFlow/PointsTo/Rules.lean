import ObjectFlow.PointsTo.State
import ObjectFlow.Program.Basic

/-!
# The rules of the points-to analysis

A method that becomes reachable in a context `c` has its statements executed once:

* `x = new T` sends an object to `c:x`, under the heap context that the sensitivity chooses;
* `x = y` and `x = (T) y` let `c:y` flow to `c:x`;
* `x = C.f` and `C.f = y` let `C.f` flow to `c:x` and `c:y` to `C.f`;
* `x = C.m(...)` leads to the declared method.

What goes through an object waits until an object `o` arrives at the variable `c:x`:

* `x.f = y` and `y = x.f` let `c:y` flow to `o.f` and `o.f` to `c:y`;
* `x[i] = y` and `y = x[i]` do the same with the elements of `o`;
* `r = x.m(...)` leads to the method found from the class of `o`, and sends `o` to its receiver.

A call that leads to a method for the first time makes the method reachable and then lets arguments
flow to parameters and returned variables to the result.

Each application of a rule is a task. Performing it yields the tasks that must follow at once.
-/

namespace ObjectFlow.PointsTo

/-- An application of a rule. -/
inductive Task
  /-- Make a method reachable in a context. -/
  | enter (c : ContextId) (m : MethodId)
  /-- Execute a statement of a method that is reachable in a context. -/
  | execute (c : ContextId) (site : StmtId)
  /-- Let an object go through a statement, having arrived at its base or receiver. -/
  | arrive (o : ObjId) (c : ContextId) (site : StmtId)
  /-- Connect arguments and results along a call. -/
  | bind (e : CallEdge ContextSite ContextMethod)
deriving DecidableEq, Repr, Inhabited

/-- The statements at which an object goes on that arrives at a variable: stores before loads,
fields before arrays, calls last. -/
def sitesThrough (uses : VarUses) : List StmtId :=
  uses.storeFields ++ uses.loadFields ++ uses.storeArrays ++ uses.loadArrays ++ uses.invokes

namespace State

variable (p : Program) (how : Sensitivity)

/-- The object that a statement allocates in a context, which is added if it is new. -/
def allocate (s : State) (c : ContextId) (site : StmtId) (ty : Ty) :
    Except Fault (ObjId × State) := do
  let (context, s) := s.contextId (how.heap (← s.arena.context c))
  let container := (← p.method site.method).decl.owner
  return s.objectId { site, ty, container, context }

/-- Let a call lead to a method. The first time, the method has to be entered and the call bound. -/
def addCall (s : State) (e : CallEdge ContextSite ContextMethod) : List Task × State :=
  let (isNew, calls) := s.calls.addEdge e
  if isNew then ([.enter e.callee.1 e.callee.2, .bind e], { s with calls }) else ([], s)

theorem addCall_eq (s : State) (e : CallEdge ContextSite ContextMethod) :
    s.addCall e = if s.calls.hasEdge e then ([], s)
      else ([.enter e.callee.1 e.callee.2, .bind e],
        { s with calls := (s.calls.addEdge e).2 }) := by
  unfold addCall CallGraph.addEdge CallGraph.hasEdge
  cases s.calls.edges.contains e <;> rfl

/-- Execute a statement of a method that is reachable in a context. -/
def execute (s : State) (c : ContextId) (site : StmtId) :
    Stmt → Except Fault (List Task × State)
  | .alloc lhs ty => do
    let (o, s) ← s.allocate p how c site ty
    return ([], s.send o (.var c lhs))
  | .copy lhs rhs | .cast lhs rhs _ => return ([], s.connect (.var c rhs) (.var c lhs))
  | .loadField lhs ⟨none, f⟩ => return ([], s.connect (.staticField f) (.var c lhs))
  | .storeField ⟨none, f⟩ rhs => return ([], s.connect (.var c rhs) (.staticField f))
  | .invoke call =>
    if call.isStatic then do
      let some m ← p.hierarchy.callee none call | throw (.unresolvedCall site)
      let (callee, s) := s.contextId (how.afterStaticCall (← s.arena.context c) site)
      return s.addCall ⟨.static, (c, site), (callee, m)⟩
    else return ([], s)
  | .loadField _ ⟨some _, _⟩ | .storeField ⟨some _, _⟩ _ | .loadArray .. | .storeArray ..
  | .literal .. | .binary .. | .branch .. | .switch .. | .goto _ | .ret _ | .nop => return ([], s)

/-- Let an object that has arrived at the receiver of a call choose the method. -/
def dispatch (s : State) (o : ObjId) (c : ContextId) (site : StmtId)
    (call : Invoke) : Except Fault (List Task × State) := do
  let obj ← s.arena.object o
  let some m ← p.hierarchy.callee obj.class? call | return ([], s)
  let receiver : Receiver := ⟨o, obj.container, ← s.arena.context obj.context⟩
  let (callee, s) := s.contextId (how.afterCall (← s.arena.context c) site receiver)
  let s := match (← p.method m).decl.this with
    | some this => s.send o (.var callee this)
    | none => s
  return s.addCall ⟨call.kind, (c, site), (callee, m)⟩

/-- Let an object go through a statement, having arrived at its base or receiver. -/
def arrive (s : State) (o : ObjId) (c : ContextId) (site : StmtId) :
    Stmt → Except Fault (List Task × State)
  | .storeField access rhs => return ([], s.connect (.var c rhs) (.instanceField o access.field))
  | .loadField lhs access => return ([], s.connect (.instanceField o access.field) (.var c lhs))
  | .storeArray _ _ rhs => return ([], s.connect (.var c rhs) (.elements o))
  | .loadArray lhs _ _ => return ([], s.connect (.elements o) (.var c lhs))
  | .invoke call => s.dispatch p how o c site call
  | _ => return ([], s)

/-- Connect arguments to parameters and returned variables to the result. -/
def bind (s : State) (e : CallEdge ContextSite ContextMethod) : Except Fault State := do
  let (caller, site) := e.site
  let (callee, m) := e.callee
  let some call ← p.invoke? site | throw (.edgeWithoutCall site)
  let method ← p.method m
  let s := (call.args.zip method.decl.params).foldl
    (fun s (arg, param) => s.connect (.var caller arg) (.var callee param)) s
  match call.result with
  | none => return s
  | some lhs =>
    return method.returnVars.foldl (fun s value => s.connect (.var callee value) (.var caller lhs))
      (s.pointerId (.var caller lhs)).2

/-- Perform a task. The tasks that come with the new state have to be performed next. -/
def perform (s : State) : Task → Except Fault (List Task × State)
  | .enter c m =>
    let (isNew, calls) := s.calls.addReachable (c, m)
    if isNew then do
      let method ← p.method m
      return (method.stmts.map fun (site, _) => .execute c site, { s with calls })
    else return ([], s)
  | .execute c site => do s.execute p how c site (← p.stmt site)
  | .arrive o c site => do s.arrive p how o c site (← p.stmt site)
  | .bind e => do return ([], ← s.bind p e)

theorem perform_enter (s : State) (c : ContextId) (m : MethodId) :
    s.perform p how (.enter c m) =
      if s.calls.isReachable (c, m) then return ([], s)
      else do
        let method ← p.method m
        return (method.stmts.map fun e => .execute c e.1,
          { s with calls := (s.calls.addReachable (c, m)).2 }) := by
  by_cases hr : s.calls.reachable.contains (c, m) = true
  · simp [perform, CallGraph.addReachable, CallGraph.isReachable, hr]
  · simp [perform, CallGraph.addReachable, CallGraph.isReachable, hr]

/-- The tasks due when objects have arrived at a pointer, object after object. -/
def reactions (s : State) (pointer : PointerId) (objects : List ObjId) :
    Except Fault (List Task) := do
  match ← s.arena.pointer pointer with
  | .var c v =>
    let sites := sitesThrough (← p.varUses v)
    return objects.flatMap fun o => sites.map fun site => .arrive o c site
  | .instanceField .. | .staticField _ | .elements _ => return []

end State

end ObjectFlow.PointsTo
