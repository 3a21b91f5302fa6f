import CoScript.Eval.Frame

/-!
# Scripts as tasks

The threads of a script are the bodies of its tasks, and each action of a body is one step of its
thread. An `await` of a promise waits for its task; an `await` of any other value only gives up the
turn.

Results:
* `Thread.step`: one step of a thread.
* `script`: the behaviour that runs threads on a world.
-/

namespace CoScript

open Effect

/-- Gives up when calls nest too deep. -/
def checkDepth (t : Thread) : Effect Unit := do
  if (← get).maxDepth < t.depth then abort .callDepth

theorem run_checkDepth (t : Thread) (w : World) :
    (checkDepth t).run w =
      (if w.maxDepth < t.depth then .error (.aborted .callDepth) else .ok (), w) := by
  unfold checkDepth
  change (if w.maxDepth < t.depth then (abort .callDepth : Effect Unit) else pure ()).run w = _
  split <;> rfl

/-- A value reaches the frame on top, or ends the thread. -/
def Thread.give (ps : Promises) (v : Value) : List Frame → Effect Move
  | [] => return .finish v
  | f :: below => f.receive ps v below

/-- A statement is left through the frame on top. A thread may end with a throw; a program that the
    parser admits never leaves its outermost body by a `break`, a `continue` or a `return`. -/
def Thread.unwind (how : Abrupt) : List Frame → Effect Move
  | f :: below => f.unwind how below
  | [] =>
    match how with
    | .thrown v pos => return .throw v pos
    | _ => abort .callDepth

/-- One step of a thread. -/
def Thread.step (ps : Promises) (t : Thread) : Effect Move := do
  match t.control with
  | .program imports ss => runProgram imports ss t.stack
  | .statements ss scope => runStatements ss scope t.stack
  | .exec s scope => execStmt s scope t.stack
  | .eval e scope => evalExpr ps e scope t.stack
  | .invoke callee args pos => CoScript.invoke ps callee args pos t.stack
  | .enter f args receiver =>
    checkDepth t
    enterFunction f args receiver t.stack
  | .bind params args body scope => bindParams params args body scope t.stack
  | .initialise k =>
    checkDepth t
    CoScript.initialise k t.stack
  | .ret v => Thread.give ps v t.stack
  | .leave how => Thread.unwind how t.stack
  | .fail f => throw (.fault f)

/-- What an `await` of a value waits for. -/
def Value.awaited : Value → Awaited Value
  | .promise id => .task id
  | v => .value v

/-- The action that a move of a thread is. -/
def Thread.action (t : Thread) : Move → Action Thread Value
  | .go control stack => .proceed { t with control, stack }
  | .await v stack => .await v.awaited { t with control := .ret .undefined, stack }
  | .spawn name child stack =>
    .spawn name ⟨child, [.call], t.depth⟩
      fun id => { t with control := .ret (.promise id), stack }
  | .finish v => .finish v
  | .throw v pos => .throw v pos

/-- The next action of a thread. -/
def Thread.act (w : World) (tasks : Array (Task Thread Value)) (t : Thread) :
    Action Thread Value × World :=
  match (t.step (.ofTasks tasks)).run w with
  | (.ok move, w) => (t.action move, w)
  | (.error (.fault f), w) => (.fail f, w)
  | (.error (.aborted cause), w) => (.abort cause, w)

/-- What a thread does when its wait is over. -/
def Delivery.control : Delivery Value → Control
  | .value v => .ret v
  | .thrown v pos => .leave (.thrown v pos)
  | .failed f => .fail f

/-- A thread whose wait is over. -/
def Thread.resume (t : Thread) (got : Delivery Value) : Thread :=
  { t with control := got.control, base := 0 }

/-- The threads of a script as the bodies of tasks. -/
def script : Behaviour Thread Value World where
  act := Thread.act
  resume := Thread.resume
  note := World.note

end CoScript
