import CoScript.Report
import CoScript.Source.Position
import CoScript.Tree.Operator

/-!
# Faults

What ends a run other than a `throw` of the script itself. A script cannot catch a fault. A fault
that ends a task in the background is labelled with the task.

Results:
* `FaultCause.kind`, `FaultCause.message`: the wording of every cause.
* `Fault.report`: a fault as it is shown.
-/

namespace CoScript

/-- The type of a value, as a script sees it. -/
inductive ValueType where
  | undefined | null | boolean | number | string | array | cls | promise | function | object
  deriving Repr, DecidableEq

/-- The name of a type. -/
def ValueType.text : ValueType → String
  | .undefined => "undefined"
  | .null => "null"
  | .boolean => "boolean"
  | .number => "number"
  | .string => "string"
  | .array => "array"
  | .cls => "class"
  | .promise => "Promise"
  | .function => "function"
  | .object => "object"

/-- Why a run cannot go on. -/
inductive FaultCause where
  /-- a name without a binding -/
  | unbound (name : String)
  /-- a write to a constant -/
  | constant (name : String)
  /-- a second declaration in one scope -/
  | redeclared (name : String)
  /-- a call of something else than a function; `what` describes the callee in the source -/
  | notCallable (what : String) (type : ValueType)
  /-- a call from outside of something else than a function -/
  | valueNotCallable (type : ValueType)
  /-- a call of a class without `new` -/
  | classCall (name : String)
  /-- `new` on something else than a class -/
  | notConstructor (what : String)
  | binaryOperands (op : BinaryOp) (left right : ValueType)
  | unaryOperand (op : UnaryOp) (type : ValueType)
  | updateOperand (op : UpdateOp) (type : ValueType)
  | notIterable (type : ValueType)
  | badSuperclass (name : String) (type : ValueType)
  | superOutside
  | memberRead (attr : String) (type : ValueType)
  | memberWrite (attr : String) (type : ValueType)
  | indexRead (type : ValueType)
  | indexWrite (type : ValueType)
  /-- a write at a key that is no index; `shown` is the key -/
  | arrayIndex (shown : String)
  /-- an import of a module that no resolver knows -/
  | moduleMissing (specifier : String)
  | exportMissing (specifier name : String)
  /-- a module file that cannot be read -/
  | moduleUnreadable (specifier path reason : String)
  | moduleNotObject (path : String)
  /-- the main task waits and nothing is left to run -/
  | stalled
  | stepLimit (limit : Nat)
  | uncaught (shown : String)
  | unhandledThrow (shown : String)
  | unhandledFault (kind message : String)
  | callDepth
  /-- a failure raised from outside the language -/
  | foreign (kind message : String)
  deriving Repr, DecidableEq

namespace FaultCause

/-- The kind of a cause. -/
def kind : FaultCause → String
  | unbound _ => "UndefinedVariable"
  | constant _ => "AssignToConst"
  | redeclared _ => "Redeclaration"
  | notCallable .. | valueNotCallable _ | classCall _ | notConstructor _ => "NotCallable"
  | binaryOperands .. | unaryOperand .. | updateOperand .. | notIterable _ | badSuperclass ..
  | superOutside | memberRead .. | memberWrite .. | indexRead _ | indexWrite _ | arrayIndex _ =>
    "TypeMismatch"
  | moduleMissing _ | exportMissing .. | moduleUnreadable .. | moduleNotObject _ =>
    "ModuleNotFound"
  | stalled | stepLimit _ => "SchedulerStalled"
  | uncaught _ => "UncaughtException"
  | unhandledThrow _ | unhandledFault .. => "UnhandledRejection"
  | callDepth => "StackOverflow"
  | foreign kind _ => kind

/-- The message of a cause. -/
def message : FaultCause → String
  | unbound name => "'" ++ name ++ "' is not defined"
  | constant name => "cannot assign to constant '" ++ name ++ "'"
  | redeclared name => "'" ++ name ++ "' is already declared in this scope"
  | notCallable what type => what ++ " is not callable (" ++ type.text ++ ")"
  | valueNotCallable type => type.text ++ " is not callable"
  | classCall name => "class " ++ name ++ " cannot be invoked without 'new'"
  | notConstructor what => what ++ " is not a constructor"
  | binaryOperands op left right =>
    "cannot apply '" ++ op.text ++ "' to " ++ left.text ++ " and " ++ right.text
  | unaryOperand op type => "cannot apply unary '" ++ op.text ++ "' to " ++ type.text
  | updateOperand op type => "cannot apply '" ++ op.text ++ "' to " ++ type.text
  | notIterable type => type.text ++ " is not iterable"
  | badSuperclass name type => "class " ++ name ++ " cannot extend " ++ type.text
  | superOutside => "'super' call outside a derived class constructor"
  | memberRead attr type => "cannot read property '" ++ attr ++ "' of " ++ type.text
  | memberWrite attr type => "cannot set property '" ++ attr ++ "' on " ++ type.text
  | indexRead type => "cannot index " ++ type.text
  | indexWrite type => "cannot set index on " ++ type.text
  | arrayIndex shown => "invalid array index " ++ shown
  | moduleMissing specifier => "cannot resolve module '" ++ specifier ++ "'"
  | exportMissing specifier name =>
    "module '" ++ specifier ++ "' has no export '" ++ name ++ "'"
  | moduleUnreadable specifier path reason =>
    "cannot load module '" ++ specifier ++ "' from " ++ path ++ ": " ++ reason
  | moduleNotObject path => "module file " ++ path ++ " must contain a JSON object"
  | stalled => "ready queue is empty but the main task is still waiting"
  | stepLimit limit =>
    "step limit of " ++ toString limit ++ " reached with tasks still runnable"
  | uncaught shown => "uncaught " ++ shown
  | unhandledThrow shown => "unhandled rejection " ++ shown
  | unhandledFault kind message => "unhandled " ++ kind ++ ": " ++ message
  | callDepth => "maximum call depth exceeded"
  | foreign _ message => message

end FaultCause

/-- A cause with its position and the label of the task that it ended, where they are known. -/
structure Fault where
  cause : FaultCause
  pos : Option Position
  task : Option String
  deriving Repr, DecidableEq

namespace Fault

/-- A fault at a position. -/
def located (cause : FaultCause) (pos : Position) : Fault :=
  ⟨cause, some pos, none⟩

/-- A fault of unknown position. -/
def nowhere (cause : FaultCause) : Fault :=
  ⟨cause, none, none⟩

/-- A fault with a position where it had none. -/
def orAt (f : Fault) (pos : Position) : Fault :=
  { f with pos := some (f.pos.getD pos) }

/-- A fault with the label of a task where it had none. -/
def inTask (f : Fault) (label : String) : Fault :=
  { f with task := some (f.task.getD label) }

/-- A fault as it is shown. -/
def report (f : Fault) : Report :=
  ⟨f.cause.kind, f.cause.message, f.pos, f.task⟩

end Fault

end CoScript
