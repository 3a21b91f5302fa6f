import CoScript.Fault

/-!
# Tasks

A task runs a body until the body waits for something, and is settled once the body ends: fulfilled
with a value, rejected by a throw, or failed with a fault. Bodies and values are parameters.

Results:
* `Task`: what is known of a task.
* `Awaited`, `Delivery`: what a body waits for, and what it gets.
-/

namespace CoScript

/-- The identity of a task: its place in the order of creation. -/
structure TaskId where
  index : Nat
  deriving Repr, DecidableEq, Inhabited

theorem TaskId.index_inj {i j : TaskId} : i.index = j.index ↔ i = j := by
  rw [TaskId.mk.injEq]

/-- The state of a task. -/
inductive TaskState (ν : Type) where
  | pending
  | fulfilled (value : ν)
  /-- rejected by a throw of `value`, whose position is known if the script threw it -/
  | thrown (value : ν) (pos : Option Position)
  /-- rejected by a fault -/
  | failed (fault : Fault)
  deriving Repr

namespace TaskState

variable {ν : Type}

/-- Whether a task has ended. -/
def isSettled : TaskState ν → Bool
  | pending => false
  | _ => true

/-- Whether a task has ended without a value. -/
def isRejected : TaskState ν → Bool
  | thrown .. | failed _ => true
  | _ => false

/-- The word for a state. -/
def text : TaskState ν → String
  | pending => "pending"
  | fulfilled _ => "fulfilled"
  | thrown .. | failed _ => "rejected"

end TaskState

/-- A body that has stopped at an await, with the task that it belongs to. -/
structure Parked (β : Type) where
  id : TaskId
  body : β
  deriving Repr

/-- A task. -/
structure Task (β ν : Type) where
  name : String
  state : TaskState ν
  /-- the bodies that wait for this task, in the order in which they began to wait -/
  waiters : List (Parked β)
  /-- whether anything ever waited for this task, or it is a main task -/
  observed : Bool
  deriving Repr

/-- The label of a task: its number, counted from one, and its name. -/
def TaskId.label (id : TaskId) (name : String) : String :=
  "#" ++ toString (id.index + 1) ++ " " ++ name

/-- What a body waits for: nothing but its turn, or the end of a task. -/
inductive Awaited (ν : Type) where
  | value (value : ν)
  | task (id : TaskId)
  deriving Repr

/-- What a body gets when its wait is over. -/
inductive Delivery (ν : Type) where
  | value (value : ν)
  | thrown (value : ν) (pos : Option Position)
  | failed (fault : Fault)
  deriving Repr

/-- What a body does next. -/
inductive Action (β ν : Type) where
  /-- it goes on -/
  | proceed (body : β)
  | await (what : Awaited ν) (body : β)
  /-- it starts a task and goes on once that waits or ends, knowing its identity -/
  | spawn (name : String) (child : β) (parent : TaskId → β)
  | finish (value : ν)
  | throw (value : ν) (pos : Option Position)
  | fail (fault : Fault)
  /-- it gives up, and all tasks with it -/
  | abort (cause : FaultCause)

/-- Something that a scheduler tells an observer. Tasks are given by their labels. -/
inductive Notice where
  | spawned (task : String)
  | yielded (task : String)
  | waits (task on : String)
  | settled (task state : String)
  | failed (task : String) (fault : Fault)
  deriving Repr

/-- How bodies act on a world that all of them share. -/
structure Behaviour (β ν ω : Type) where
  /-- the next action of a body, which may look at the tasks -/
  act : ω → Array (Task β ν) → β → Action β ν × ω
  /-- a body whose wait is over -/
  resume : β → Delivery ν → β
  /-- what the world makes of a notice -/
  note : Notice → ω → ω

end CoScript
