import CoScript.Config
import CoScript.Module.Path
import CoScript.Text.Layout

/-!
# Arguments of the command line

An argument is an option, two dashes, behind which nothing is an option, or plain. A long option may
be cut short as long as only one option starts like that, and may have its value attached behind an
equals sign. An argument that looks like a negative number, or that has a blank in it and is no
option, is plain.

Results:
* `UsageError`: what may be wrong with a command line.
* `Argument.ofTexts`: what the arguments are.
-/

namespace CoScript

/-- The options of the command line. -/
inductive Switch where
  | help | module | lenientImports | maxSteps | dumpTokens | dumpTree | logLevel | logFile
  deriving Repr, DecidableEq

namespace Switch

/-- All options. -/
def all : List Switch :=
  [help, module, lenientImports, maxSteps, dumpTokens, dumpTree, logLevel, logFile]

/-- The long name of an option. -/
def name : Switch → String
  | help => "--help"
  | module => "--module"
  | lenientImports => "--lenient-imports"
  | maxSteps => "--max-steps"
  | dumpTokens => "--dump-tokens"
  | dumpTree => "--dump-ast"
  | logLevel => "--log-level"
  | logFile => "--log-file"

/-- Whether a value belongs to an option. -/
def takesValue : Switch → Bool
  | module | maxSteps | logLevel | logFile => true
  | help | lenientImports | dumpTokens | dumpTree => false

/-- The options that a long name means: the one that has it, or else all that start with it. -/
def named (text : String) : List Switch :=
  match all.find? (·.name = text) with
  | some s => [s]
  | none => all.filter (Text.startsWith ·.name text)

end Switch

/-- What is wrong with a command line. -/
inductive UsageError where
  | ambiguous (text : String)
  | valueMissing (option : Switch)
  | valueUnwanted (option : Switch)
  | notNumber (text : String)
  | sourceMissing
  | unexpected (texts : List String)
  | unknownLevel (name : String)
  | badModule (why : ModuleOption.Malformed)
  | badConfig (why : ConfigError)
  deriving Repr, DecidableEq

/-- The message of an error. -/
def UsageError.message : UsageError → String
  | ambiguous text => "ambiguous option " ++ text
  | valueMissing option => option.name ++ " needs a value"
  | valueUnwanted option => option.name ++ " takes no value"
  | notNumber text => "not a whole number: " ++ Text.visible text
  | sourceMissing => "no script is given"
  | unexpected texts => "unexpected arguments: " ++ Text.join " " texts
  | unknownLevel name => "unknown log level " ++ Text.visible name
  | badModule why => "--module: " ++ why.message
  | badConfig why => why.message

/-- An argument of the command line. -/
inductive Argument where
  | plain (text : String)
  /-- two dashes -/
  | dashes
  /-- an option, perhaps with its value -/
  | option (option : Switch) (attached : Option String)
  /-- something that looks like an option and is none -/
  | unknown (text : String)
  deriving Repr, DecidableEq

namespace Argument

/-- Whether characters are decimal digits, and there are some. -/
def areDigits (cs : List Char) : Bool :=
  !cs.isEmpty && cs.all fun c => (Text.digitValue? c).isSome

/-- The characters without a line feed at their end. -/
def dropLastBreak (cs : List Char) : List Char :=
  if cs.getLast? = some '\n' then cs.dropLast else cs

/-- Whether the characters behind a dash make it a negative number: digits, perhaps with a point
    before some of them. -/
def isNumber (cs : List Char) : Bool :=
  let cs := dropLastBreak cs
  match cs.span (· ≠ '.') with
  | (whole, []) => areDigits whole
  | (whole, _ :: part) => (whole.isEmpty || areDigits whole) && areDigits part

/-- An argument that starts with a dash, is longer than that, and is no option. -/
def ofOther (text : String) : Argument :=
  if isNumber (text.toList.drop 1) || text.toList.contains ' ' then plain text else unknown text

/-- An argument that starts with two dashes and is longer than that. -/
def ofLong (text : String) : Except UsageError Argument :=
  let (before, after) := text.toList.span (· ≠ '=')
  let attached := match after with
    | [] => none
    | _ :: r => some (String.ofList r)
  match Switch.named (String.ofList before) with
  | [] => .ok (ofOther text)
  | [s] => .ok (option s attached)
  | _ => .error (.ambiguous text)

/-- The short option for help with the characters behind it. Each `h` is the option again, and what
    follows the last of them counts as a value. -/
def helpWith : List Char → Argument
  | [] => option .help none
  | 'h' :: r => helpWith r
  | r => option .help (some (String.ofList r))

/-- An argument that starts with one dash and is longer than that. An equals sign right behind the
    short option counts only if nothing follows it. -/
def ofShort (text : String) : Argument :=
  match text.toList.drop 1 with
  | ['h', '='] => option .help (some "")
  | 'h' :: '=' :: r => helpWith r
  | 'h' :: r => helpWith r
  | _ => ofOther text

/-- What an argument before two dashes is. -/
def ofText (text : String) : Except UsageError Argument :=
  match text.toList with
  | '-' :: '-' :: _ => ofLong text
  | '-' :: _ :: _ => .ok (ofShort text)
  | _ => .ok (plain text)

/-- What the arguments of a command line are. -/
def ofTexts : List String → Except UsageError (List Argument)
  | [] => .ok []
  | text :: rest =>
    if text = "--" then .ok (dashes :: rest.map plain)
    else do
      let a ← ofText text
      let r ← ofTexts rest
      return a :: r

end Argument

end CoScript
