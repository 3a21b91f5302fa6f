import CoScript.Command.Line
import CoScript.Session
import CoScript.Tree.Printer

/-!
# What a command does

A command is checked together with the environment before anything is read; the result is a plan. A
plan is carried out on the texts of files and gives what is written to both outputs, what is added
to the log file, and the status.

Results:
* `Plan.make`: checks a command.
* `Plan.perform`: carries out a plan.
-/

namespace CoScript

/-! ## Levels -/

/-- The names of the levels from which on the log is shown, in capitals, and how severe they are. -/
def levelNames : List (String × Nat) := [
  ("CRITICAL", 50), ("FATAL", 50), ("ERROR", 40), ("WARN", 30), ("WARNING", 30), ("INFO", 20),
  ("DEBUG", 10), ("NOTSET", 0)]

/-- A character as a capital, for the letters of ASCII and those that share a capital with one of
    them. -/
def capital (c : Char) : Char :=
  if c = 'ı' then 'I' else if c = 'ſ' then 'S' else c.toUpper

/-- How severe the records of the level with a name are, whatever its case. -/
def severityOf? (name : String) : Option Nat :=
  (levelNames.find? (·.1 = name.map capital)).map (·.2)

/-- The variable for the log level. -/
def levelVariable : String := "TSLITE_LOG_LEVEL"

/-- The name of the log level: from the command, or else from the environment, or else `WARNING`; an
    empty one counts as none. -/
def levelName (set : Option String) (env : Environment) : String :=
  match set.filter (· ≠ ""), (env levelVariable).filter (· ≠ "") with
  | some name, _ => name
  | none, some name => name
  | none, none => "WARNING"

/-! ## Plans -/

/-- A command that can be carried out. -/
structure Plan where
  /-- the path of the script, in its normal form -/
  source : String
  modules : List ModuleOption
  config : Config
  dump : Dump
  /-- how severe a record must be to be shown -/
  severity : Nat
  logFile : Option String
  deriving Repr

namespace Plan

/-- The modules that options name. -/
def readModules : List String → Except UsageError (List ModuleOption)
  | [] => .ok []
  | text :: rest => do
    let m ← (ModuleOption.parse text).mapError .badModule
    let r ← readModules rest
    return m :: r

/-- Checks a command: first the log level, then the modules, then the settings. -/
def make (env : Environment) (c : Command) : Except UsageError Plan := do
  let name := levelName c.logLevel env
  let some severity := severityOf? name | .error (.unknownLevel name)
  let modules ← readModules c.modules
  let config ← (Config.ofEnvironment env c.overrides).mapError .badConfig
  return ⟨Path.normal c.source, modules, config, c.dump, severity, c.logFile.map Path.normal⟩

/-- The paths of the files that a plan reads. -/
def paths (p : Plan) : List String :=
  p.source :: p.modules.map (·.path)

end Plan

/-! ## Results -/

/-- What a command comes to: its status and what it writes. -/
structure Answer where
  status : Nat
  output : String
  errors : String
  /-- what is added to the log file, if there is one -/
  logged : Option (String × String)
  deriving Repr, DecidableEq

namespace Plan

/-- A line for each record that is severe enough. -/
def logText (p : Plan) (records : List LogRecord) : String :=
  String.join ((records.filter (p.severity ≤ ·.level.severity)).map (·.text ++ "\n"))

/-- The answer with a status, an output, records of the log and lines for the errors. -/
def answer (p : Plan) (status : Nat) (output : String) (records : List LogRecord)
    (lines : List String) : Answer :=
  let log := p.logText records
  let lines := String.join (lines.map (· ++ "\n"))
  match p.logFile with
  | none => ⟨status, output, log ++ lines, none⟩
  | some path => ⟨status, output, lines, some (path, log)⟩

/-- A record of the command line itself. -/
def ownRecord (level : Level) (message : String) : LogRecord :=
  ⟨level, .commandLine, message⟩

/-- The answer when the script fails. -/
def failed (p : Plan) (output : String) (records : List LogRecord) (r : Report) : Answer :=
  p.answer 1 output (records ++ [ownRecord .debug "run failed"]) [r.text]

/-- A token on one line: its position, a star if a line break comes before it, its kind, its
    text. -/
def tokenLine (t : Token) : String :=
  toString t.pos.line ++ ":" ++ toString t.pos.column ++
    (if t.afterBreak then "*" else " ") ++ " " ++
    t.lexeme.kind ++ " " ++ t.lexeme.text ++ "\n"

/-- Shows the tokens of a script, as far as they can be read. -/
def dumpTokens (p : Plan) (source : String) : Answer :=
  let ts := tokenize source
  let shown (l : List Token) := String.join (l.map tokenLine)
  match ts.ending with
  | .complete pos => p.answer 0 (shown (ts.list ++ [.endOfInput pos])) [] []
  | .broken e => p.failed (shown ts.list) [] (SyntaxError.lexical e).report

/-- Shows a script as it is printed. -/
def dumpTree (p : Plan) (source : String) : Answer :=
  match parse source with
  | .ok program => p.answer 0 program.text [] []
  | .error e => p.failed "" [] e.report

/-- A host that resolves imports with the modules of a plan. -/
def host (p : Plan) (maxDepth : Nat) (files : Files) : Host :=
  let modules := p.modules.foldl (fun r m => r.add m.specifier m.path) (JsonResolver.ofPaths [])
  let (id, resolvers) := { Resolvers.empty with files }.new (.json modules)
  { Host.none maxDepth with resolvers, resolver := some id }

/-- Runs a program. A failure of the host's own is shown, but it is not the script that failed. -/
def runProgram (p : Plan) (fuel maxDepth : Nat) (files : Files) (program : Program) :
    Option Answer := do
  let (outcome, s) ← (Session.run fuel program).run (.new p.config (p.host maxDepth files))
  let records := ownRecord .info ("running " ++ p.source) :: s.world.log.toList
  match outcome with
  | .ok result =>
    return p.answer 0 s.world.output records (result.unhandled.map (·.report.text))
  | .error fault =>
    match fault.cause with
    | .foreign .. => return p.answer 1 s.world.output records [fault.report.text]
    | _ => return p.failed s.world.output records fault.report

/-- Carries out a plan on the texts of files. It gives nothing if the fuel of a run does not
    last. -/
def perform (p : Plan) (fuel maxDepth : Nat) (files : Files) : Option Answer :=
  match files.read? p.source with
  | none => some (p.answer 2 "" [] ["tslite: cannot read " ++ p.source])
  | some text =>
    let source := Text.unifyBreaks text
    if p.dump.tokens then some (p.dumpTokens source)
    else if p.dump.tree then some (p.dumpTree source)
    else
      match parse source with
      | .ok program => p.runProgram fuel maxDepth files program
      | .error e => some (p.failed "" [] e.report)

end Plan

/-- The files after an answer: the log file has grown. -/
def Answer.filesAfter (a : Answer) (files : Files) : Files :=
  match a.logged with
  | none => files
  | some (path, text) => files.write path ((files.read? path).getD "" ++ text)

end CoScript
