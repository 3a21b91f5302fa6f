import CoScript.Text.Integer
import CoScript.Text.Visible

/-!
# Settings

Two settings govern a run: how often tasks may go on, and whether an import may fail. Each comes
from the caller, or else from a variable of the environment, or else from a default.

Results:
* `Config.make`: settings that hold together.
* `Config.ofEnvironment`: settings from the environment and from the caller.
-/

namespace CoScript

/-- The settings of a run. -/
structure Config where
  /-- how often tasks may go on from the queue -/
  maxSteps : Nat
  /-- whether an import that cannot be resolved binds `undefined` -/
  lenient : Bool
  maxSteps_pos : 0 < maxSteps
  deriving Repr, DecidableEq

/-- Why there are no settings. -/
inductive ConfigError where
  | stepsNotPositive
  /-- a variable that should hold a whole number -/
  | stepsNotNumber (text : String)
  /-- a variable that should hold a truth value -/
  | lenientNotBool (text : String)
  deriving Repr, DecidableEq

/-- What a caller sets. -/
structure Overrides where
  maxSteps : Option Int
  lenient : Option Bool
  deriving Repr, DecidableEq

/-- The variables of an environment. -/
abbrev Environment := String → Option String

namespace Config

/-- The variable for the number of steps. -/
def stepsVariable : String := "TSLITE_MAX_STEPS"

/-- The variable for lenient imports. -/
def lenientVariable : String := "TSLITE_LENIENT_IMPORTS"

end Config

/-- The message of an error. -/
def ConfigError.message : ConfigError → String
  | stepsNotPositive => "max_scheduler_steps must be positive"
  | stepsNotNumber text =>
    Config.stepsVariable ++ " must be an integer, got " ++ Text.visible text
  | lenientNotBool text =>
    Config.lenientVariable ++ " must be a boolean, got " ++ Text.visible text

namespace Config

/-- Settings with a number of steps that must be positive. -/
def make (steps : Int) (lenient : Bool) : Except ConfigError Config :=
  if h : 0 < steps then .ok ⟨steps.toNat, lenient, by omega⟩ else .error .stepsNotPositive

/-- The settings where nothing is set. -/
def standard : Config := ⟨100000, false, by decide⟩

/-- The words for yes. -/
def trueWords : List String := ["1", "true", "yes", "on"]

/-- The words for no. -/
def falseWords : List String := ["0", "false", "no", "off", ""]

/-- The truth value that a text holds, whatever its case and the blanks around it. -/
def readBool? (text : String) : Option Bool :=
  let word := (Text.trim text).toLower
  if trueWords.contains word then some true
  else if falseWords.contains word then some false
  else none

/-- The number of steps that the environment sets; an empty variable sets nothing. -/
def stepsOf (env : Environment) : Except ConfigError Int :=
  match env stepsVariable with
  | none | some "" => .ok standard.maxSteps
  | some text =>
    match Text.readInt? text with
    | some n => .ok n
    | none => .error (.stepsNotNumber text)

/-- Whether the environment allows imports to fail. -/
def lenientOf (env : Environment) : Except ConfigError Bool :=
  match env lenientVariable with
  | none => .ok standard.lenient
  | some text =>
    match readBool? text with
    | some b => .ok b
    | none => .error (.lenientNotBool text)

/-- Settings from the caller, or else from the environment. A variable that cannot be read is an
    error even if the caller sets what it stands for. -/
def ofEnvironment (env : Environment) (set : Overrides) : Except ConfigError Config := do
  let steps ← stepsOf env
  let lenient ← lenientOf env
  make (set.maxSteps.getD steps) (set.lenient.getD lenient)

/-- Settings from the caller, or else the standard ones. -/
def ofOverrides (set : Overrides) : Except ConfigError Config :=
  ofEnvironment (fun _ => none) set

end Config

end CoScript
