import CoScript.Command.Switch

/-!
# Command lines

A command line names one script and sets options, in any order. An option that is set twice has its
last value, but all modules count.

Results:
* `Command`: what a command line asks for.
* `Command.ofArguments`: reads a command line.
-/

namespace CoScript

/-- What is to be shown instead of a run. -/
structure Dump where
  tokens : Bool
  tree : Bool
  deriving Repr, DecidableEq

/-- What a command line asks for. -/
structure Command where
  /-- the path of the script -/
  source : String
  /-- the options that name modules, in order -/
  modules : List String
  overrides : Overrides
  dump : Dump
  logLevel : Option String
  logFile : Option String
  deriving Repr, DecidableEq

/-- A command line asks for help or for something to be done. -/
inductive Request where
  | help
  | perform (command : Command)
  deriving Repr, DecidableEq

/-- What is known of a command when a part of its line is read. -/
structure Draft where
  source : Option String
  command : Command
  /-- arguments that have no meaning, the last one first -/
  extra : List String

namespace Draft

/-- Nothing is read yet. -/
def empty : Draft :=
  ⟨none, ⟨"", [], ⟨none, none⟩, ⟨false, false⟩, none, none⟩, []⟩

/-- A plain argument: the script, if there is none yet. -/
def plain (d : Draft) (text : String) : Draft :=
  match d.source with
  | none => { d with source := some text }
  | some _ => { d with extra := text :: d.extra }

/-- An option that needs no value. -/
def flag (d : Draft) : Switch → Draft
  | .lenientImports =>
    { d with command := { d.command with
        overrides := { d.command.overrides with lenient := some true } } }
  | .dumpTokens =>
    { d with command := { d.command with dump := { d.command.dump with tokens := true } } }
  | .dumpTree =>
    { d with command := { d.command with dump := { d.command.dump with tree := true } } }
  | _ => d

/-- A value that was given; two dashes take back what was given before. -/
def given (value : String) : Option String :=
  if value = "--" then none else some value

/-- An option with its value. -/
def setting (d : Draft) (s : Switch) (value : String) : Except UsageError Draft :=
  let c := d.command
  match s with
  | .module => .ok { d with command := { c with modules := c.modules ++ [value] } }
  | .maxSteps =>
    match Text.readInt? value with
    | some n =>
      .ok { d with command := { c with overrides := { c.overrides with maxSteps := some n } } }
    | none => .error (.notNumber value)
  | .logLevel => .ok { d with command := { c with logLevel := given value } }
  | .logFile => .ok { d with command := { c with logFile := given value } }
  | s => .error (.valueUnwanted s)

/-- The command when its line is read to the end. -/
def finish (d : Draft) : Except UsageError Request :=
  match d.source, d.extra with
  | none, _ => .error .sourceMissing
  | some source, [] => .ok (.perform { d.command with source })
  | some _, extra => .error (.unexpected extra.reverse)

end Draft

/-- Reads the arguments that are left. Two dashes go with the script, which may stand before or
    behind them. -/
def scan : List Argument → Draft → Except UsageError Request
  | [], d => d.finish
  | .option .help none :: _, _ => .ok .help
  | .option s none :: rest, d =>
    if s.takesValue then
      match rest with
      | .plain v :: rest => do scan rest (← d.setting s v)
      | _ => .error (.valueMissing s)
    else scan rest (d.flag s)
  | .option s (some v) :: rest, d => do scan rest (← d.setting s v)
  | .unknown text :: rest, d => scan rest { d with extra := text :: d.extra }
  | .plain text :: .dashes :: rest, d =>
    if d.source.isNone then scan rest (d.plain text)
    else scan rest { d with extra := "--" :: text :: d.extra }
  | .plain text :: rest, d => scan rest (d.plain text)
  | .dashes :: .plain text :: rest, d =>
    if d.source.isNone then scan rest (d.plain text)
    else scan rest { d with extra := text :: "--" :: d.extra }
  | .dashes :: rest, d => scan rest { d with extra := "--" :: d.extra }

/-- Reads a command line. -/
def Command.ofArguments (args : List String) : Except UsageError Request := do
  scan (← Argument.ofTexts args) .empty

end CoScript
