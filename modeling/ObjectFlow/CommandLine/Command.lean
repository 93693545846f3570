import ObjectFlow.CommandLine.Arguments
import ObjectFlow.CommandLine.Report
import ObjectFlow.Document.Model

/-!
# The commands

One command reports what variables may point to, the other which definitions are constant. Both read
a program from a file, so a command works in two parts: `Command.plan` says what to do and which
file to read, and `Job.run` answers when it is given the contents.
-/

namespace ObjectFlow.CommandLine

inductive Command
  | pointsTo
  | constants
deriving DecidableEq, Repr, Inhabited

/-- What a command leaves behind. -/
structure Response where
  status : UInt32 := 0
  out : String := ""
  err : String := ""
deriving DecidableEq, Repr, Inhabited

/-- What a command is to do. -/
structure Job where
  command : Command
  arguments : Arguments
deriving DecidableEq, Repr, Inhabited

/-- The file from which a job reads its program. -/
def Job.path (j : Job) : String := j.arguments.operand

/-! ## From arguments to jobs -/

def flag (name : String) : OptionSpec := { name }

/-- An option that takes one of some words. -/
def choice (name : String) (words : List String) : OptionSpec :=
  { name, accepts := some (words.contains ·) }

def number (name : String) (short : Option Char) : OptionSpec :=
  { name, short, accepts := some fun value => (number? value).isSome }

def Command.options : Command → List OptionSpec
  | .pointsTo =>
    [choice "check" ["default", "none"], choice "selector" ["ci", "k-call", "k-obj", "k-type"],
      number "k" (some 'k'), choice "order" ["fifo", "lifo", "random"], number "seed" none,
      flag "debug", flag "quiet", flag "metrics", flag "tracing"]
  | .constants =>
    [number "contexts" none, flag "debug", flag "intra", flag "quiet", flag "metrics",
      flag "tracing"]

/-- What a command answers to a request for its version. -/
def version : String := "oopta 0.1.0\n"

/-- What a command answers to a request for help. -/
def Command.help (c : Command) : String :=
  lines ("Usage: [OPTIONS] <PROGRAM>" :: "" :: "Options:" ::
    c.options.map fun o =>
      if o.accepts.isSome then s!"  --{o.name} <VALUE>" else s!"  --{o.name}")

/-- The job that arguments ask for, or the answer if they ask for none. -/
def Command.plan (c : Command) (args : List String) : Except Response Job :=
  match Arguments.parse c.options args with
  | .ok arguments => .ok { command := c, arguments }
  | .error .version => .error { out := version }
  | .error .help => .error { out := c.help }
  | .error (.misuse e) => .error { status := 2, err := s!"error: {e.message}\n" }

/-! ## From contents to answers -/

/-- Why there is no program to analyse. -/
inductive LoadError
  | unreadable
  | undecodable
  | malformed (e : ModelError)
deriving DecidableEq, Repr, Inhabited

/-- The text with every line but the first moved to the right. -/
def indented (text : String) : String :=
  String.ofList (text.toList.flatMap fun c => if c = '\n' then "\n    ".toList else [c])

/-- The report on a file that holds no program. -/
def LoadError.message (path : String) : LoadError → String
  | unreadable => s!"Error: Couldn't read program at {path}\n"
  | undecodable => s!"Error: Couldn't deserialize program at {path}\n"
  | malformed e => s!"Error: Malformed program\n\nCaused by:\n    {indented e.message}\n"

/-- The program in a file, of which the contents are given if it can be read. -/
def load (contents : Option String) : Except LoadError Program :=
  match contents with
  | none => .error .unreadable
  | some text =>
    match Model.parse? text with
    | none => .error .undecodable
    | some m => (Program.ofModel m).mapError .malformed

/-- The number that an option gives, or a default. -/
def Arguments.number (a : Arguments) (name : String) (default : Nat) : Nat :=
  ((a.value? name).bind number?).getD default

/-- The scattered numbers that a seed stands for. Any numbers would do, since no order of work
changes what is reported. -/
def scattered (seed n : Nat) : Nat :=
  ((UInt64.ofNat (seed + n) * 6364136223846793005 + 1442695040888963407) >>> 33).toNat

/-- The choices that arguments make for a points-to analysis. -/
def Arguments.pointsToOptions (a : Arguments) : PointsTo.Options where
  sensitivity :=
    (Sensitivity.ofName? (a.number "k" 1) ((a.value? "selector").getD "ci")).getD .insensitive
  discipline := match a.value? "order" with
    | some "lifo" => .lifo
    | some "random" => .random (scattered (a.number "seed" 0))
    | _ => .fifo
  check := a.value? "check" ≠ some "none"
  metrics := a.has "metrics"

def pointsToReport (p : Program) (a : Arguments) (limit : Nat) : Except Fault (List String) := do
  let r ← PointsTo.analyze p a.pointsToOptions limit
  let found ← if a.has "quiet" then pure [] else findings p r
  return found ++ (r.metrics.map metricsLines).getD []

/-- The numeric definitions of a program: each method on its own if `intra` is given, otherwise with
calls and the heap taken into account. -/
def constantDefinitions (p : Program) (a : Arguments) (limit : Nat) :
    Except Fault (List (StmtId × VarId × Value)) := do
  if a.has "intra" then
    let methods := p.methods.toList.filter (!·.decl.isAbstract)
    return (← methods.mapM fun m => do
      Constant.definitions p [m.id] (← Constant.propagate p m.id)).flatten
  else
    let k := a.number "contexts" 0
    let sensitivity := if k = 0 then .insensitive else .object k
    let r ← PointsTo.analyze p { sensitivity } limit
    Constant.definitions p r.plainCalls.reachable.toList (← Constant.propagateProgram p r)

def constantsReport (p : Program) (a : Arguments) (limit : Nat) : Except Fault (List String) := do
  let defs ← constantDefinitions p a limit
  let found ← if a.has "quiet" then pure [] else defs.mapM (definitionText p)
  return found ++ if a.has "metrics" then definitionMetrics defs else []

/-- The answer of a job, given the contents of its file if it can be read. -/
def Job.run (j : Job) (contents : Option String) (limit : Nat) : Response :=
  match load contents with
  | .error e => { status := 1, err := e.message j.path }
  | .ok p =>
    let report := match j.command with
      | .pointsTo => pointsToReport p j.arguments limit
      | .constants => constantsReport p j.arguments limit
    match report with
    | .ok ls => { out := lines ls }
    | .error fault => { status := 101, err := (fault.message?.getD "unknown identifier") ++ "\n" }

end ObjectFlow.CommandLine
