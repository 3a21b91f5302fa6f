import CoScript.Module.HostFunction
import CoScript.Module.Resolver

/-!
# The world of a run

What all tasks of a program share: the heap, what was printed and logged, the interfaces declared so
far, and where modules and functions of the host come from.

Results:
* `World`: the shared state.
* `Effect`: computations on it that a fault may end.
-/

namespace CoScript

/-- How much a log record matters. -/
inductive Level where
  | debug | info | warning | error
  deriving Repr, DecidableEq

namespace Level

/-- The word for a level. -/
def text : Level → String
  | debug => "DEBUG"
  | info => "INFO"
  | warning => "WARNING"
  | error => "ERROR"

/-- The number that orders levels. -/
def severity : Level → Nat
  | debug => 10
  | info => 20
  | warning => 30
  | error => 40

end Level

/-- The part of the program that has something to log. -/
inductive LogSource where
  | scheduler | modules | evaluation | commandLine
  deriving Repr, DecidableEq

/-- How the log names a part of the program. -/
def LogSource.text : LogSource → String
  | scheduler => "tslite.scheduler"
  | modules => "tslite.modules"
  | evaluation => "tslite.interp"
  | commandLine => "tslite.cli"

/-- A line of the log. -/
structure LogRecord where
  level : Level
  source : LogSource
  message : String
  deriving Repr

/-- A log record on one line. -/
def LogRecord.text (r : LogRecord) : String :=
  r.level.text ++ " " ++ r.source.text ++ ": " ++ r.message

/-- What all tasks share. -/
structure World where
  heap : Heap
  /-- the scope of the program -/
  globals : Ref .scope
  /-- interfaces and the names of their members -/
  interfaces : Ordered (List String)
  output : String
  log : Array LogRecord
  resolvers : Resolvers
  /-- the resolver of imports, if there is one -/
  resolver : Option ResolverId
  /-- whether an import that cannot be resolved binds `undefined` -/
  lenient : Bool
  host : Ordered HostFunction
  /-- what the functions of the host remember -/
  memory : HostValue
  /-- how deep calls may nest -/
  maxDepth : Nat

/-- A computation on the world that a fault may end. -/
abbrev Effect := ExceptT Halt (StateM World)

namespace Effect

/-- The first part of a computation, and then the second one unless the first fails. -/
theorem run_bind {α β : Type} (x : Effect α) (f : α → Effect β) (w : World) :
    (x >>= f).run w = match x.run w with
      | (.ok a, w') => (f a).run w'
      | (.error e, w') => (.error e, w') := by
  change (ExceptT.bindCont f (x.run w).1) (x.run w).2 = _
  obtain ⟨r, w'⟩ := x.run w
  cases r <;> rfl

/-- Ends with a fault at a position. -/
def fault {α : Type} (cause : FaultCause) (pos : Option Position) : Effect α :=
  throw (.fault ⟨cause, pos, none⟩)

/-- Gives up. -/
def abort {α : Type} (cause : FaultCause) : Effect α :=
  throw (.aborted cause)

/-- A result that may be missing because it has no end. -/
def ofOption {α : Type} : Option α → Effect α
  | some a => pure a
  | none => abort .callDepth

/-- The heap. -/
def heap : Effect Heap :=
  return (← get).heap

/-- Changes the heap. -/
def modifyHeap (f : Heap → Heap) : Effect Unit :=
  modify fun w => { w with heap := f w.heap }

/-- Makes something in the heap. -/
def inHeap {α : Type} (f : Heap → α × Heap) : Effect α :=
  modifyGet fun w =>
    let (a, heap) := f w.heap
    (a, { w with heap })

/-- Makes something in the heap, or gives up. -/
def ofHeap {α : Type} (f : InHeap α) : Effect α := do
  match f.run (← heap) with
  | .ok (a, h) =>
    modifyHeap fun _ => h
    return a
  | .error cause => abort cause

/-- Adds to the output. -/
def print (text : String) : Effect Unit :=
  modify fun w => { w with output := w.output ++ text }

/-! ## Scopes -/

/-- A new scope inside another. -/
def newScope (parent : Ref .scope) (isFunction : Bool) : Effect (Ref .scope) :=
  inHeap (·.newScope (some parent) isFunction)

/-- The value of a name. -/
def lookup (scope : Ref .scope) (name : String) (pos : Option Position) : Effect Value := do
  match (← heap).scopes.lookup scope name with
  | .ok v => return v
  | .error cause => fault cause pos

/-- Binds a name, whatever it meant before. -/
def bind (scope : Ref .scope) (name : String) (b : Binding) : Effect Unit :=
  modifyHeap fun h => { h with scopes := h.scopes.bind scope name b }

/-- Declares a name in a scope. -/
def define (scope : Ref .scope) (name : String) (value : Value) (isConst : Bool)
    (pos : Option Position) : Effect Unit := do
  match (← heap).scopes.defineFault? scope name with
  | some cause => fault cause pos
  | none => bind scope name ⟨value, isConst⟩

/-- Declares a name in the scope of the function. -/
def declareVar (scope : Ref .scope) (name : String) (value : Option Value) : Effect Unit :=
  modifyHeap fun h => { h with scopes := h.scopes.declareVar scope name value }

/-- Writes a name. -/
def assign (scope : Ref .scope) (name : String) (value : Value) (pos : Position) :
    Effect Unit := do
  match (← heap).scopes.assignTarget scope name with
  | .error cause => fault cause (some pos)
  | .ok target => bind target name ⟨value, false⟩

/-- Makes a function. -/
def newFunction (f : Function) : Effect Value := do
  return .function (← inHeap (·.newFunction f))

end Effect

/-- Adds a record to the log. -/
def World.record (w : World) (level : Level) (source : LogSource) (message : String) :
    World :=
  { w with log := w.log.push ⟨level, source, message⟩ }

/-- What the log says about a notice of the scheduler. -/
def Notice.text : Notice → String
  | .spawned task => "spawn task " ++ task
  | .yielded task => "task " ++ task ++ " yields"
  | .waits task on => "task " ++ task ++ " waits on " ++ on
  | .settled task state => "task " ++ task ++ " " ++ state
  | .failed task fault => "task " ++ task ++ " failed: " ++ fault.report.text

/-- Logs a notice of the scheduler. -/
def World.note (n : Notice) (w : World) : World :=
  w.record .debug .scheduler n.text

/-- Logs what the evaluation has to say. -/
def Effect.record (level : Level) (message : String) : Effect Unit :=
  modify (·.record level .evaluation message)

end CoScript
