/-!
# Arguments of a command

Options start with dashes and may stand anywhere: a long one as `--name`, with its value behind an
equals sign or in the next argument, a short one as `-n`, with its value glued to it, behind an
equals sign, or in the next argument. What does not start with a dash is the operand, of which there
is exactly one, and after a bare `--` everything is. Arguments are read from left to right and the
first mistake ends the reading, unless the version or the help was asked for before it.
-/

namespace ObjectFlow.CommandLine

/-- An option that a command understands. -/
structure OptionSpec where
  name : String
  short : Option Char := none
  /-- The values that the option takes; a flag takes none. -/
  accepts : Option (String → Bool) := none
deriving Inhabited

/-- What can be wrong with arguments. -/
inductive UsageError
  | unknownOption (argument : String)
  | missingValue (name : String)
  | invalidValue (name value : String)
  | unwantedValue (name : String)
  | repeatedOption (name : String)
  | extraOperand (argument : String)
  | emptyOperand
  | missingOperand
deriving DecidableEq, Repr, Inhabited

def UsageError.message : UsageError → String
  | unknownOption argument => s!"unexpected argument '{argument}'"
  | missingValue name => s!"a value is required for '--{name}'"
  | invalidValue name value => s!"invalid value '{value}' for '--{name}'"
  | unwantedValue name => s!"'--{name}' takes no value"
  | repeatedOption name => s!"'--{name}' cannot be used multiple times"
  | extraOperand argument => s!"unexpected argument '{argument}'"
  | emptyOperand => "the program must not be empty"
  | missingOperand => "a program is required"

/-- Why the arguments do not lead to a run. -/
inductive Stop
  | version
  | help
  | misuse (e : UsageError)
deriving DecidableEq, Repr, Inhabited

/-- What the arguments read so far have said. -/
structure Reading where
  /-- The options given so far with their values, which are empty for flags. -/
  given : List (String × String) := []
  operand : Option String := none
  /-- The option whose value comes next. -/
  waiting : Option OptionSpec := none
  /-- Whether a bare double dash has been read. -/
  ended : Bool := false
deriving Inhabited

/-- What the arguments of a run say. -/
structure Arguments where
  given : List (String × String)
  operand : String
deriving DecidableEq, Repr, Inhabited

def Arguments.has (a : Arguments) (name : String) : Bool := (a.given.lookup name).isSome

def Arguments.value? (a : Arguments) (name : String) : Option String := a.given.lookup name

namespace Reading

/-- Give an option a value, which is empty for a flag. -/
def give (r : Reading) (o : OptionSpec) (value : String) : Except Stop Reading :=
  if (r.given.lookup o.name).isSome then throw (.misuse (.repeatedOption o.name))
  else if o.accepts.any (!· value) then throw (.misuse (.invalidValue o.name value))
  else return { r with given := (o.name, value) :: r.given, waiting := none }

def operandArgument (r : Reading) (argument : String) : Except Stop Reading :=
  if r.operand.isSome then throw (.misuse (.extraOperand argument))
  else if argument.isEmpty then throw (.misuse .emptyOperand)
  else return { r with operand := some argument }

/-- Read an option that may have its value in the same argument. -/
def optionArgument (r : Reading) (o : OptionSpec) (value : Option String) : Except Stop Reading :=
  match o.accepts, value with
  | none, none => r.give o ""
  | none, some _ => throw (.misuse (.unwantedValue o.name))
  | some _, some value => r.give o value
  | some _, none => return { r with waiting := some o }

/-- Read an argument that starts with two dashes, which `text` follows. -/
def longArgument (specs : List OptionSpec) (r : Reading) (text : List Char) : Except Stop Reading :=
  let name := String.ofList (text.takeWhile (· ≠ '='))
  let value := match text.dropWhile (· ≠ '=') with
    | _ :: value => some (String.ofList value)
    | [] => none
  match specs.find? (·.name = name) with
  | some o => r.optionArgument o value
  | none =>
    match name, value with
    | "version", none => throw .version
    | "help", none => throw .help
    | "version", some _ | "help", some _ => throw (.misuse (.unwantedValue name))
    | _, _ => throw (.misuse (.unknownOption ("--" ++ name)))

/-- Read an argument that starts with one dash, which the option `c` and `text` follow. -/
def shortArgument (specs : List OptionSpec) (r : Reading) (c : Char) (text : List Char) :
    Except Stop Reading :=
  match specs.find? (·.short = some c) with
  | some o =>
    match text with
    | [] => r.optionArgument o none
    | '=' :: value => r.optionArgument o (some (String.ofList value))
    | value => r.optionArgument o (some (String.ofList value))
  | none =>
    match c with
    | 'V' => throw .version
    | 'h' => throw .help
    | _ => throw (.misuse (.unknownOption (String.ofList ['-', c])))

/-- Read an argument where an option may stand. -/
def argument (specs : List OptionSpec) (r : Reading) (argument : String) : Except Stop Reading :=
  match argument.toList with
  | ['-', '-'] => return { r with ended := true }
  | '-' :: '-' :: text => r.longArgument specs text
  | '-' :: c :: text => r.shortArgument specs c text
  | _ => r.operandArgument argument

/-- Whether an argument looks like an option, so that it cannot be the value of one. -/
def looksLikeOption (argument : String) : Bool :=
  match argument.toList with
  | '-' :: _ :: _ => true
  | _ => false

def next (specs : List OptionSpec) (r : Reading) (argument : String) : Except Stop Reading :=
  match r.waiting with
  | some o =>
    if looksLikeOption argument then throw (.misuse (.missingValue o.name))
    else r.give o argument
  | none =>
    if r.ended then r.operandArgument argument
    else r.argument specs argument

/-- What the arguments say once all are read. -/
def finish (r : Reading) : Except Stop Arguments :=
  match r.waiting, r.operand with
  | some o, _ => throw (.misuse (.missingValue o.name))
  | none, none => throw (.misuse .missingOperand)
  | none, some operand => return { given := r.given, operand }

end Reading

def Arguments.parse (specs : List OptionSpec) (args : List String) : Except Stop Arguments := do
  (← args.foldlM (Reading.next specs) {}).finish

/-- A number of at most 64 bits in decimal digits, which a plus sign may precede. -/
def number? (text : String) : Option Nat :=
  let digits := match text.toList with
    | '+' :: digits => digits
    | digits => digits
  if digits.isEmpty || !digits.all Char.isDigit then none
  else
    let n := digits.foldl (fun n c => 10 * n + (c.toNat - '0'.toNat)) 0
    if n < 0x10000000000000000 then some n else none

end ObjectFlow.CommandLine
