import CoScript.Config
import CoScript.Eval.Script
import CoScript.Store.Root
import CoScript.Tree.Parser

/-!
# Sessions

A session runs programs and calls functions one after the other on one world and one scheduler.
When a run is over, the rejections that nothing waited for are reported, and a throw that nothing
caught becomes a fault.

Results:
* `Session.run`: runs a program.
* `Session.call`: calls a function of the program from outside.
* `Session.lookup`: the value of a name.
* `evaluate`: runs the text of a program in a session of its own.
-/

namespace CoScript

/-- What a host brings to a session. -/
structure Host where
  /-- what the host has put into the heap already -/
  heap : Heap
  resolvers : Resolvers
  /-- the resolver of imports, if there is one -/
  resolver : Option ResolverId
  functions : Ordered HostFunction
  /-- what the functions remember at first -/
  memory : HostValue
  /-- names for the root scope -/
  names : List (String × Value)
  /-- how deep calls may nest -/
  maxDepth : Nat

/-- A host that brings nothing but a limit for the depth of calls. -/
def Host.none (maxDepth : Nat) : Host :=
  ⟨.empty, .empty, .none, .empty, .value .undefined, [], maxDepth⟩

/-- A rejection as it is reported. -/
structure Rejection where
  task : TaskId
  fault : Fault
  deriving Repr

/-- A world and a scheduler for programs one after the other. -/
structure Session where
  machine : Machine Thread Value World
  /-- all rejections reported so far, the first one first -/
  reported : Array Rejection

/-- What a program leaves behind. -/
structure RunResult where
  globals : List (String × Value)
  unhandled : List Fault

/-- A computation on a session that a fault may end. It gives nothing if its fuel does not last. -/
abbrev InSession := ExceptT Fault (StateT Session Option)

namespace Session

/-- A session in which nothing has run. -/
def new (config : Config) (host : Host) : Session :=
  let (globals, heap) := host.heap.newGlobals host.names
  let world : World :=
    { heap, globals, interfaces := .empty, output := "", log := #[], resolvers := host.resolvers,
      resolver := host.resolver, lenient := config.lenient, host := host.functions,
      memory := host.memory, maxDepth := host.maxDepth }
  ⟨⟨.fresh config.maxSteps, world⟩, #[]⟩

/-- The world of a session. -/
def world (s : Session) : World :=
  s.machine.world

/-- The scheduler of a session. -/
def sched (s : Session) : Scheduler Thread Value :=
  s.machine.sched

/-- The states of the promises of a session. -/
def promises (s : Session) : Promises :=
  .ofTasks s.sched.tasks

/-- The text that shows a value inside others, if it has an end. -/
def render? (s : Session) (v : Value) : Option String :=
  s.world.heap.render s.promises v true

/-- The bindings of the program, in order. -/
def bindings (s : Session) : List (String × Binding) :=
  (s.world.heap.scopes.get s.world.globals).bindings.entries

/-! ## Reports -/

/-- The fault that a rejection is reported as. A task that is not rejected is not reported. -/
def rejectionFault? (s : Session) (id : TaskId) : Option Fault :=
  let label := s.sched.labelOf id
  match s.sched.stateOf id with
  | .failed f => some ⟨.unhandledFault f.cause.kind f.cause.message, f.pos, some label⟩
  | .thrown v pos => (s.render? v).map fun shown => ⟨.unhandledThrow shown, pos, some label⟩
  | .pending | .fulfilled _ => none

/-- A session with a rejection reported, and a warning about it in the log. -/
def withReport (s : Session) (r : Rejection) : Session :=
  let world := s.world.record .warning .evaluation r.fault.report.text
  ⟨{ s.machine with world }, s.reported.push r⟩

/-- Reports a rejection. -/
def reportRejection (id : TaskId) : InSession Fault := do
  match (← get).rejectionFault? id with
  | some fault =>
    modify (·.withReport ⟨id, fault⟩)
    return fault
  | none => throw (.nowhere .callDepth)

/-- Reports all rejections that the scheduler has listed. -/
def reportAll : InSession (List Fault) := do
  (← get).sched.unhandled.mapM reportRejection

/-! ## Runs -/

/-- Runs a thread as the main task, and then all tasks. -/
def runMain (fuel : Nat) (name : String) (control : Control) : InSession TaskId := do
  match Machine.run script fuel name ⟨control, [], 0⟩ (← get).machine with
  | none => fun _ => none
  | some (outcome, machine) =>
    modify fun s => { s with machine }
    match outcome with
    | .ok id => return id
    | .error halt => throw halt.toFault

/-- The value that a main task ended with; a throw that nothing caught becomes a fault. -/
def resultOf (id : TaskId) : InSession Value := do
  let s ← get
  match s.sched.stateOf id with
  | .fulfilled v => return v
  | .thrown v pos =>
    match s.render? v with
    | some shown => throw ⟨.uncaught shown, pos, none⟩
    | none => throw (.nowhere .callDepth)
  | .failed fault => throw fault
  | .pending => throw (.nowhere .stalled)

/-- Runs a program. Its result lists all rejections of the session that no call has cleared. -/
def run (fuel : Nat) (program : Program) : InSession RunResult := do
  let ss := program.statements
  let id ← runMain fuel "main" (.program (importsOf ss) ss)
  let unhandled ← reportAll
  let _ ← resultOf id
  return ⟨(← get).bindings.map fun e => (e.1, e.2.value), unhandled⟩

/-- The value of a name of the program. -/
def lookup (name : String) : InSession Value := do
  let s ← get
  match s.world.heap.scopes.lookup s.world.globals name with
  | .ok v => return v
  | .error cause => throw (.nowhere cause)

/-- Forgets the rejections that are listed. -/
def clearUnhandled (s : Session) : Session :=
  { s with machine := { s.machine with sched := { s.sched with unhandled := [] } } }

/-- The value of a promise that is fulfilled, and any other value itself. -/
def settledValue (s : Session) (v : Value) : Value :=
  match v with
  | .promise id =>
    match s.sched.stateOf id with
    | .fulfilled w => w
    | _ => v
  | v => v

/-- Where a call from outside happens. -/
def outside : Position := ⟨0, 0⟩

/-- Calls a function of the program from outside. -/
def call (fuel : Nat) (name : String) (args : List Value) : InSession Value := do
  let callee ← lookup name
  modify clearUnhandled
  let id ← runMain fuel name (.invoke callee args outside)
  let _ ← reportAll
  let v ← resultOf id
  return (← get).settledValue v

end Session

/-! ## Programs from text -/

/-- Why a text has no result. -/
inductive Failure where
  | rejected (error : SyntaxError)
  | ended (fault : Fault)

/-- A failure as it is shown. -/
def Failure.report : Failure → Report
  | rejected error => error.report
  | ended fault => fault.report

namespace Session

/-- Runs the text of a program; nothing runs unless all of it can be read. -/
def runText (fuel : Nat) (source : String) (s : Session) :
    Option (Except Failure RunResult × Session) :=
  match parse source with
  | .error e => some (.error (.rejected e), s)
  | .ok program =>
    ((run fuel program).run s).map fun (outcome, s) => (outcome.mapError .ended, s)

end Session

/-- Runs the text of a program in a session of its own. -/
def evaluate (fuel : Nat) (config : Config) (host : Host) (source : String) :
    Option (Except Failure RunResult × Session) :=
  (Session.new config host).runText fuel source

end CoScript
