import CoScript.Command.Plan

/-!
# The program

Reads the files that a command needs and writes what it answers.
-/

namespace CoScript

/-- How a command line is written. -/
def usageText : String :=
  "usage: tslite [-h] [--module SPEC=PATH] [--lenient-imports] [--max-steps N] [--dump-tokens]\n"
    ++ "              [--dump-ast] [--log-level LEVEL] [--log-file FILE] source"

/-- More moves than any run makes. -/
def moveLimit : Nat := Nat.pow 2 62

/-- How deep the calls of a script may nest. -/
def depthLimit : Nat := 100

/-- The values of the variables that commands look at. -/
def readEnvironment : IO Environment := do
  let names := [levelVariable, Config.stepsVariable, Config.lenientVariable]
  let pairs ← names.mapM fun n => return (n, ← IO.getEnv n)
  return fun name => (pairs.find? (·.1 = name)).bind (·.2)

/-- Adds the text of a file, if it can be read. -/
def readInto (files : Files) (path : String) : IO Files := do
  try return files.write path (← IO.FS.readFile path)
  catch _ => return files

/-- Writes an answer and gives its status. -/
def Answer.write (a : Answer) : IO UInt32 := do
  if let some (path, text) := a.logged then
    IO.FS.withFile path .append fun h => h.putStr text
  IO.print a.output
  IO.eprint a.errors
  return UInt32.ofNat a.status

/-- Says what is wrong with a command line. -/
def UsageError.write (e : UsageError) : IO UInt32 := do
  IO.eprintln usageText
  IO.eprintln ("tslite: error: " ++ e.message)
  return 2

/-- Carries out a plan. -/
def Plan.carryOut (p : Plan) : IO UInt32 := do
  let files ← p.paths.foldlM readInto Files.none
  match p.perform moveLimit depthLimit files with
  | some answer => answer.write
  | none => return 1

end CoScript

open CoScript in
/-- Carries out what a command line asks for. -/
def main (args : List String) : IO UInt32 := do
  match Command.ofArguments args with
  | .error e => e.write
  | .ok .help =>
    IO.println usageText
    return 0
  | .ok (.perform command) =>
    match Plan.make (← readEnvironment) command with
    | .error e => e.write
    | .ok plan => plan.carryOut
