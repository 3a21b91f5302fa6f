import CoScript.Task.Scheduler

/-!
# Running tasks

A machine is a scheduler and the world that its bodies share. It moves in ticks: the innermost
running body acts, or, if none runs, the body at the front of the queue gets its turn. Starting a
task, running a main task and draining the queue are runs of ticks, cut off by `fuel`.

Results:
* `Machine.tick`: one move.
* `Machine.spawn`, `Machine.run`, `Machine.drain`: the operations of a host.
-/

namespace CoScript

/-- Why a run of tasks ends before its time. -/
inductive Halt where
  | fault (fault : Fault)
  /-- a body gave up -/
  | aborted (cause : FaultCause)
  deriving Repr

/-- The fault that a halt is shown as. -/
def Halt.toFault : Halt → Fault
  | .fault f => f
  | .aborted cause => .nowhere cause

/-- A halt whose fault gets a position where it had none. -/
def Halt.orAt (pos : Position) : Halt → Halt
  | .fault f => .fault (f.orAt pos)
  | .aborted cause => .aborted cause

/-- A scheduler and the world of its bodies. -/
structure Machine (β ν ω : Type) where
  sched : Scheduler β ν
  world : ω

/-- What a tick comes to. -/
inductive Progress (σ : Type) where
  | next (state : σ)
  /-- nothing is left to do -/
  | idle (state : σ)
  | halted (why : Halt) (state : σ)

namespace Machine

variable {β ν ω : Type} (B : Behaviour β ν ω)

/-- A task ends and its observer is told. -/
def settle (m : Machine β ν ω) (id : TaskId) (state : TaskState ν) : Machine β ν ω :=
  ⟨m.sched.settle id state, B.note (.settled (m.sched.labelOf id) state.text) m.world⟩

/-- A task ends with a fault, which gets the label of the task unless it has one. -/
def fail (m : Machine β ν ω) (id : TaskId) (f : Fault) : Machine β ν ω :=
  let label := m.sched.labelOf id
  let f := f.inTask label
  settle B { m with world := B.note (.failed label f) m.world } id (.failed f)

/-- A body waits and its observer is told. -/
def suspend [Inhabited ν] (m : Machine β ν ω) (p : Parked β) (a : Awaited ν) : Machine β ν ω :=
  let (sched, notice) := m.sched.suspend p a
  ⟨sched, B.note notice m.world⟩

/-- A new task, whose body runs first, and its observer is told. -/
def start (m : Machine β ν ω) (name : String) (body : β) (observed : Bool) : Machine β ν ω :=
  ⟨m.sched.start name body observed,
    B.note (.spawned (m.sched.nextId.label name)) m.world⟩

/-- The machine with other running bodies. -/
def withRunning (m : Machine β ν ω) (running : List (Parked β)) : Machine β ν ω :=
  { m with sched := { m.sched with running } }

/-- The action of the innermost running body takes effect. The fault of the main task is not kept
    by the task but ends the run. -/
def perform [Inhabited ν] (m : Machine β ν ω) (id : TaskId) (outer : List (Parked β)) :
    Action β ν → Progress (Machine β ν ω)
  | .proceed body => .next (m.withRunning (⟨id, body⟩ :: outer))
  | .await what body => .next (suspend B (m.withRunning outer) ⟨id, body⟩ what)
  | .spawn name child parent =>
    .next (start B (m.withRunning (⟨id, parent m.sched.nextId⟩ :: outer)) name child false)
  | .finish v => .next (settle B (m.withRunning outer) id (.fulfilled v))
  | .throw v pos => .next (settle B (m.withRunning outer) id (.thrown v pos))
  | .fail f =>
    if m.sched.main = some id then .halted (.fault f) (m.withRunning outer)
    else .next (fail B (m.withRunning outer) id f)
  | .abort cause => .halted (.aborted cause) (m.withRunning [])

/-- The innermost running body acts. -/
def act [Inhabited ν] (m : Machine β ν ω) : Progress (Machine β ν ω) :=
  match m with
  | ⟨sched, world⟩ =>
    match sched.running with
    | [] => .idle ⟨sched, world⟩
    | ⟨id, body⟩ :: outer =>
      let (action, world) := B.act world sched.tasks body
      perform B ⟨sched, world⟩ id outer action

/-- The body at the front of the queue gets its turn, if the limit allows another. -/
def dispatch [Inhabited ν] (m : Machine β ν ω) : Progress (Machine β ν ω) :=
  match m.sched.next? with
  | none => .idle m
  | some (p, got, sched) =>
    if m.sched.maxSteps ≤ m.sched.steps then
      .halted (.fault (.nowhere (.stepLimit m.sched.maxSteps))) m
    else .next (withRunning { m with sched } [⟨p.id, B.resume p.body got⟩])

/-- One move. -/
def tick [Inhabited ν] (m : Machine β ν ω) : Progress (Machine β ν ω) :=
  if m.sched.running.isEmpty then dispatch B m else act B m

/-- Moves until nothing is left to do or the run is cut short; nothing if `fuel` does not last. -/
def iterate (move : Machine β ν ω → Progress (Machine β ν ω)) :
    Nat → Machine β ν ω → Option (Except Halt Unit × Machine β ν ω)
  | 0, _ => none
  | fuel + 1, m =>
    match move m with
    | .next m => iterate move fuel m
    | .idle m => some (.ok (), m)
    | .halted why m => some (.error why, m)

/-- Runs the queue until it is empty, and reports the rejections that nobody waited for. -/
def drain [Inhabited ν] (fuel : Nat) (m : Machine β ν ω) :
    Option (Except Halt Unit × Machine β ν ω) :=
  match iterate (tick B) fuel m with
  | some (.ok (), m) => some (.ok (), { m with sched := m.sched.report })
  | r => r

/-- Starts a task and runs its body, and those it starts, until it waits or ends. -/
def spawn [Inhabited ν] (fuel : Nat) (name : String) (body : β) (m : Machine β ν ω) :
    Option (Except Halt TaskId × Machine β ν ω) :=
  let id := m.sched.nextId
  match iterate (act B) fuel (start B m name body false) with
  | some (.ok (), m) => some (.ok id, m)
  | some (.error why, m) => some (.error why, m)
  | none => none

/-- Starts a task as the main task. -/
def startMain (name : String) (body : β) (m : Machine β ν ω) : Machine β ν ω :=
  let id := m.sched.nextId
  let m := start B m name body true
  { m with sched := { m.sched with main := some id } }

/-- The outcome of a main task once the queue is drained: it may still wait, and then never ends. -/
def conclude (id : TaskId) (m : Machine β ν ω) : Except Halt TaskId :=
  if (m.sched.stateOf id).isSettled then .ok id
  else .error (.fault ⟨.stalled, none, some (m.sched.labelOf id)⟩)

/-- Runs a body as the main task and then the queue. -/
def run [Inhabited ν] (fuel : Nat) (name : String) (body : β) (m : Machine β ν ω) :
    Option (Except Halt TaskId × Machine β ν ω) :=
  let id := m.sched.nextId
  match drain B fuel (startMain B name body m) with
  | some (.ok (), m) => some (conclude id m, m)
  | some (.error why, m) => some (.error why, m)
  | none => none

end Machine

end CoScript
