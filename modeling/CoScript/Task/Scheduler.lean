import CoScript.Task.Basic

/-!
# The scheduler

Tasks take turns: a body runs until it waits or ends, and a body that a body starts runs first. The
bodies that can go on stand in a queue, first in, first out.

Results:
* `Scheduler.suspend`, `Scheduler.settle`: a body waits, a task ends.
* `Scheduler.next?`: the body at the front of the queue and what it gets.
* `Scheduler.report`: the rejections that nobody waited for.
-/

namespace CoScript

/-- A body in the queue, with what it waited for. -/
structure Ready (β ν : Type) where
  parked : Parked β
  awaited : Awaited ν
  deriving Repr

/-- The state of all tasks. -/
structure Scheduler (β ν : Type) where
  tasks : Array (Task β ν)
  /-- the bodies that can go on, in turn -/
  ready : List (Ready β ν)
  /-- the bodies that are running, the innermost first -/
  running : List (Parked β)
  /-- the task whose fault ends the run -/
  main : Option TaskId
  /-- how many bodies have gone on from the queue -/
  steps : Nat
  maxSteps : Nat
  /-- rejected tasks that nothing waited for when they ended, and that are not reported yet -/
  rejected : List TaskId
  /-- rejected tasks that are reported, in the order of their ends -/
  unhandled : List TaskId
  deriving Repr

namespace Scheduler

variable {β ν : Type}

/-- A scheduler without tasks. -/
def fresh (maxSteps : Nat) : Scheduler β ν :=
  ⟨#[], [], [], none, 0, maxSteps, [], []⟩

/-- The name of a task. -/
def nameOf (s : Scheduler β ν) (id : TaskId) : String :=
  match s.tasks[id.index]? with
  | some t => t.name
  | none => ""

/-- The label of a task. -/
def labelOf (s : Scheduler β ν) (id : TaskId) : String :=
  id.label (s.nameOf id)

/-- The state of a task; one that does not exist is pending. -/
def stateOf (s : Scheduler β ν) (id : TaskId) : TaskState ν :=
  match s.tasks[id.index]? with
  | some t => t.state
  | none => .pending

/-- Whether a task was ever waited for. -/
def isObserved (s : Scheduler β ν) (id : TaskId) : Bool :=
  match s.tasks[id.index]? with
  | some t => t.observed
  | none => false

/-- A task changed by a function. -/
def modify (s : Scheduler β ν) (id : TaskId) (f : Task β ν → Task β ν) : Scheduler β ν :=
  { s with tasks := s.tasks.modify id.index f }

/-- The identity of the next task. -/
def nextId (s : Scheduler β ν) : TaskId :=
  ⟨s.tasks.size⟩

/-- A new task, whose body runs first. -/
def start (s : Scheduler β ν) (name : String) (body : β) (observed : Bool) : Scheduler β ν :=
  { s with
    tasks := s.tasks.push ⟨name, .pending, [], observed⟩
    running := ⟨s.nextId, body⟩ :: s.running }

/-- Puts a body at the end of the queue. -/
def enqueue (s : Scheduler β ν) (p : Parked β) (a : Awaited ν) : Scheduler β ν :=
  { s with ready := s.ready ++ [⟨p, a⟩] }

/-- A body waits: with the task it waits for if that is pending, else in the queue. For a task that
    does not exist it waits as for a plain value. -/
def suspend [Inhabited ν] (s : Scheduler β ν) (p : Parked β) (a : Awaited ν) :
    Scheduler β ν × Notice :=
  let label := s.labelOf p.id
  match a with
  | .value _ => (s.enqueue p a, .yielded label)
  | .task id =>
    match s.tasks[id.index]? with
    | none => (s.enqueue p (.value default), .yielded label)
    | some t =>
      if t.state.isSettled then
        ((s.modify id fun t => { t with observed := true }).enqueue p a, .yielded label)
      else
        (s.modify id fun t => { t with observed := true, waiters := t.waiters ++ [p] },
          .waits label (s.labelOf id))

/-- A task ends: whatever waited for it goes to the end of the queue. -/
def settle (s : Scheduler β ν) (id : TaskId) (state : TaskState ν) : Scheduler β ν :=
  match s.tasks[id.index]? with
  | none => s
  | some t =>
    { s with
      tasks := s.tasks.modify id.index fun t => { t with state, waiters := [] }
      ready := s.ready ++ t.waiters.map (⟨·, .task id⟩)
      rejected := if state.isRejected && t.waiters.isEmpty then s.rejected ++ [id] else s.rejected }

section Frames

variable (s : Scheduler β ν) (name : String) (body : β) (observed : Bool) (p : Parked β)
  (a : Awaited ν) (id : TaskId) (state : TaskState ν)

@[simp] theorem start_tasks :
    (s.start name body observed).tasks = s.tasks.push ⟨name, .pending, [], observed⟩ := rfl

@[simp] theorem start_running :
    (s.start name body observed).running = ⟨s.nextId, body⟩ :: s.running := rfl

@[simp] theorem start_main : (s.start name body observed).main = s.main := rfl

/-- The three ways to wait: for a plain value, for a task that has ended, and for one that is
    pending. -/
theorem suspend_cases [Inhabited ν] :
    (∃ v, (s.suspend p a).1 = s.enqueue p (.value v)) ∨
    (∃ id t, a = .task id ∧ s.tasks[id.index]? = some t ∧ t.state.isSettled = true ∧
      (s.suspend p a).1 = (s.modify id fun t => { t with observed := true }).enqueue p a) ∨
    (∃ id t, a = .task id ∧ s.tasks[id.index]? = some t ∧ t.state.isSettled = false ∧
      (s.suspend p a).1 =
        s.modify id fun t => { t with observed := true, waiters := t.waiters ++ [p] }) := by
  cases a with
  | value v => exact .inl ⟨v, rfl⟩
  | task id =>
    cases ht : s.tasks[id.index]? with
    | none => exact .inl ⟨default, by simp [suspend, ht]⟩
    | some t =>
      cases hs : t.state.isSettled
      · exact .inr (.inr ⟨id, t, rfl, ht, hs, by simp [suspend, ht, hs]⟩)
      · exact .inr (.inl ⟨id, t, rfl, ht, hs, by simp [suspend, ht, hs]⟩)

@[simp] theorem suspend_running [Inhabited ν] : (s.suspend p a).1.running = s.running := by
  obtain ⟨v, h⟩ | ⟨_, _, _, _, _, h⟩ | ⟨_, _, _, _, _, h⟩ := s.suspend_cases p a <;> rw [h] <;> rfl

@[simp] theorem suspend_main [Inhabited ν] : (s.suspend p a).1.main = s.main := by
  obtain ⟨v, h⟩ | ⟨_, _, _, _, _, h⟩ | ⟨_, _, _, _, _, h⟩ := s.suspend_cases p a <;> rw [h] <;> rfl

@[simp] theorem size_tasks_suspend [Inhabited ν] :
    (s.suspend p a).1.tasks.size = s.tasks.size := by
  obtain ⟨v, h⟩ | ⟨_, _, _, _, _, h⟩ | ⟨_, _, _, _, _, h⟩ := s.suspend_cases p a <;> rw [h] <;>
    simp [enqueue, modify]

@[simp] theorem settle_running : (s.settle id state).running = s.running := by
  unfold settle; split <;> rfl

@[simp] theorem settle_main : (s.settle id state).main = s.main := by
  unfold settle; split <;> rfl

@[simp] theorem size_tasks_settle : (s.settle id state).tasks.size = s.tasks.size := by
  unfold settle; split <;> simp

end Frames

/-- What a body gets that waited for something. A body in the queue never waits for a task that is
    pending, so the default value is never delivered. -/
def delivery [Inhabited ν] (s : Scheduler β ν) : Awaited ν → Delivery ν
  | .value v => .value v
  | .task id =>
    match s.stateOf id with
    | .pending => .value default
    | .fulfilled v => .value v
    | .thrown v pos => .thrown v pos
    | .failed f => .failed f

/-- The body at the front of the queue with what it gets, and the scheduler that counts its turn. -/
def next? [Inhabited ν] (s : Scheduler β ν) :
    Option (Parked β × Delivery ν × Scheduler β ν) :=
  match s.ready with
  | [] => none
  | r :: rest =>
    some (r.parked, s.delivery r.awaited, { s with ready := rest, steps := s.steps + 1 })

/-- Reports the rejected tasks that nothing has waited for up to now. -/
def report (s : Scheduler β ν) : Scheduler β ν :=
  { s with
    unhandled := s.unhandled ++ s.rejected.filter (!s.isObserved ·)
    rejected := s.rejected.filter (s.isObserved ·) }

end Scheduler

end CoScript
