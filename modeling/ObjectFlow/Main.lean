import ObjectFlow.CommandLine.Command

/-!
# The program

The name under which the program is called selects the command.
-/

open ObjectFlow CommandLine

/-- The contents of a file, if it can be read. -/
def readFile? (path : String) : IO (Option String) := do
  try return some (← IO.FS.readFile path)
  catch _ => return none

/-- Far more steps than an analysis takes that ends. -/
def stepLimit : Nat := 0x4000000000000000

def main (args : List String) : IO UInt32 := do
  let command : Command :=
    if (← IO.appPath).fileStem = some "constants" then .constants else .pointsTo
  let response ← match command.plan args with
    | .error response => pure response
    | .ok job => pure (job.run (← readFile? job.path) stepLimit)
  IO.print response.out
  IO.eprint response.err
  return response.status
