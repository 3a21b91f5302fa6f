import CoScript.Proofs.Moved.Machine
import CoScript.Proofs.Session.Budget

/-!
# Programs that differ in their positions alone

A session looks at no position: a program whose positions are moved runs as the program itself does,
and whatever the run leaves behind has its positions moved. So two programs that differ in their
positions alone cannot be told apart by what their runs show, other than by the positions shown.

Results:
* `Session.Alike`: two sessions that differ in positions and in their logs alone.
* `Session.moves_run`: the run of a program with its positions moved.
* `Session.observeRun_eq_of_unplaced_eq`: programs that are equal up to positions show the same.
-/

namespace CoScript

variable {f : Position → Position}

/-! ## Sessions -/

/-- A rejection with its position moved. -/
def Rejection.mapPos (f : Position → Position) (r : Rejection) : Rejection :=
  { r with fault := r.fault.mapPos f }

/-- What a program leaves behind, with its positions moved. -/
def RunResult.mapPos (f : Position → Position) (r : RunResult) : RunResult :=
  { r with unhandled := r.unhandled.map (·.mapPos f) }

/-- What a host brings, with its positions moved. -/
def Host.mapPos (f : Position → Position) (h : Host) : Host :=
  { h with
    heap := h.heap.mapPos f
    functions := h.functions.mapWithKey fun _ g => g.mapPos f }

/-- The second session is the first one with its positions moved, whatever is logged. -/
structure Session.Alike (f : Position → Position) (s s' : Session) : Prop where
  machine : s.machine.Alike f (·.mapPos f) (World.Alike f) s'.machine
  reported : s'.reported = s.reported.map (·.mapPos f)

namespace Session.Alike

variable {s s' : Session}

theorem stateOf (hs : s.Alike f s') (id : TaskId) :
    s'.sched.stateOf id = (s.sched.stateOf id).mapPos f := by
  rw [sched, hs.machine.sched, Scheduler.stateOf_mapPos]
  rfl

theorem labelOf (hs : s.Alike f s') (id : TaskId) : s'.sched.labelOf id = s.sched.labelOf id := by
  rw [sched, hs.machine.sched, Scheduler.labelOf_mapPos]
  rfl

theorem bindings (hs : s.Alike f s') : s'.bindings = s.bindings := by
  obtain ⟨-, log, hworld⟩ := hs.machine.world
  unfold Session.bindings world
  rw [hworld]
  rfl

/-- The text of a value does not depend on positions. -/
theorem render? (hs : s.Alike f s') (v : Value) : s'.render? v = s.render? v := by
  obtain ⟨-, log, hworld⟩ := hs.machine.world
  have hpromises : s'.promises = s.promises.mapPos f := by
    rw [promises, sched, hs.machine.sched]
    exact Promises.ofTasks_mapPos f (·.mapPos f) s.sched.tasks
  unfold Session.render? world
  rw [hpromises, hworld]
  exact Heap.render_mapPos _ _ v true

theorem rejectionFault? (hs : s.Alike f s') (id : TaskId) :
    s'.rejectionFault? id = (s.rejectionFault? id).map (·.mapPos f) := by
  unfold Session.rejectionFault?
  simp only [hs.stateOf, hs.labelOf, hs.render?]
  cases s.sched.stateOf id with
  | thrown v pos =>
    simp only [TaskState.mapPos]
    cases s.render? v <;> rfl
  | _ => rfl

theorem withReport (hs : s.Alike f s') (r : Rejection) :
    (s.withReport r).Alike f (s'.withReport (r.mapPos f)) := by
  refine ⟨⟨hs.machine.sched, hs.machine.world.record ..⟩, ?_⟩
  simp [Session.withReport, hs.reported]

end Session.Alike

/-! ## Computations on sessions -/

/-- The second computation does in sessions that are alike what the first one does, up to positions;
    `g` moves those of the result. -/
def InSession.Moves {α : Type} (f : Position → Position) (g : α → α) (x x' : InSession α) : Prop :=
  ∀ s s', s.Alike f s' → RunsAlike (Fault.mapPos f) g (Session.Alike f) (x.run s) (x'.run s')

namespace InSession.Moves

variable {α β : Type} {g : α → α} {k : β → β} {x x' : InSession α} {y y' : α → InSession β}

theorem pure {a a' : α} (h : g a = a') : Moves f g (Pure.pure a) (Pure.pure a') := by
  subst h
  exact fun s s' hs => .finished (.ok a) hs

theorem throw {e e' : Fault} (h : e.mapPos f = e') :
    Moves f g (MonadExcept.throw e) (MonadExcept.throw e') := by
  subst h
  exact fun s s' hs => .finished (.error e) hs

theorem modify {m m' : Session → Session} (h : ∀ s s', s.Alike f s' → (m s).Alike f (m' s')) :
    Moves f id (modify m : InSession Unit) (modify m') :=
  fun s s' hs => .finished (.ok ()) (h s s' hs)

/-- A computation that starts by looking at the session. -/
theorem get_bind {z z' : Session → InSession β}
    (h : ∀ s s', s.Alike f s' → Moves f k (z s) (z' s')) :
    Moves f k (MonadState.get >>= z) (MonadState.get >>= z') :=
  fun s s' hs => h s s' hs s s' hs

theorem bind (hx : Moves f g x x') (hy : ∀ a, Moves f k (y a) (y' (g a))) :
    Moves f k (x >>= y) (x' >>= y') := by
  intro s s' hs
  have hrun := hx s s' hs
  rw [InSession.run_bind, InSession.run_bind]
  generalize x.run s = r, x'.run s' = r' at hrun
  cases hrun with
  | unfinished => exact .unfinished
  | finished out h =>
    cases out with
    | error e => exact .finished (.error e) h
    | ok a => exact hy a _ _ h

theorem mapM {items : List β} {y : β → InSession α} (hy : ∀ b, Moves f g (y b) (y b)) :
    Moves f (List.map g) (items.mapM y) (items.mapM y) := by
  induction items with
  | nil => exact pure rfl
  | cons b items ih =>
    rw [List.mapM_cons]
    exact bind (hy b) fun _ => bind ih fun _ => pure rfl

end InSession.Moves

namespace Heap

variable (h : Heap)

theorem newScope_mapPos (parent : Option (Ref .scope)) (isFunction : Bool) :
    (h.mapPos f).newScope parent isFunction =
      ((h.newScope parent isFunction).1, (h.newScope parent isFunction).2.mapPos f) :=
  rfl

theorem bindAll_mapPos (r : Ref .scope) (bindings : List (String × Binding)) :
    (h.mapPos f).bindAll r bindings = (h.bindAll r bindings).mapPos f :=
  rfl

theorem newRoot_mapPos : (h.mapPos f).newRoot = (h.newRoot.1, h.newRoot.2.mapPos f) := by
  have hprint : (h.mapPos f).newFunction .print = _ := h.newFunction_mapPos .print
  simp only [newRoot, hprint, newScope_mapPos, bindAll_mapPos]

/-- The scope of a program is the same wherever the code of the host stands. -/
theorem newGlobals_mapPos (names : List (String × Value)) :
    (h.mapPos f).newGlobals names =
      ((h.newGlobals names).1, (h.newGlobals names).2.mapPos f) := by
  simp only [newGlobals, newRoot_mapPos, scopes_mapPos, bindAll_mapPos, newScope_mapPos]

end Heap

namespace Session

open InSession

variable {fuel : ℕ} {task : TaskId}

theorem moves_reportRejection :
    Moves f (Fault.mapPos f) (reportRejection task) (reportRejection task) := by
  refine .get_bind fun s s' hs => ?_
  rw [hs.rejectionFault?]
  cases s.rejectionFault? task with
  | none => exact .throw rfl
  | some e =>
    exact .bind (.modify fun s s' hs => hs.withReport ⟨task, e⟩) fun _ => .pure rfl

theorem moves_reportAll : Moves f (List.map (Fault.mapPos f)) reportAll reportAll := by
  refine .get_bind fun s s' hs => ?_
  have hunhandled : s'.sched.unhandled = s.sched.unhandled := by
    rw [sched, hs.machine.sched]
    rfl
  rw [hunhandled]
  exact .mapM fun _ => moves_reportRejection

theorem moves_runMain {name : String} {control : Control} :
    Moves f id (runMain fuel name control) (runMain fuel name (control.mapPos f)) := by
  intro s s' hs
  have hrun := hs.machine.run (moves_script f) fuel name ⟨control, [], 0⟩
  have hthread : Thread.mapPos f ⟨control, [], 0⟩ = ⟨control.mapPos f, [], 0⟩ := rfl
  rw [hthread] at hrun
  rw [runMain_eq, runMain_eq]
  generalize Machine.run script fuel name ⟨control, [], 0⟩ s.machine = r,
    Machine.run script fuel name ⟨control.mapPos f, [], 0⟩ s'.machine = r' at hrun
  cases hrun with
  | unfinished => exact .unfinished
  | finished out h =>
    cases out with
    | ok id => exact .finished (.ok id) ⟨h, hs.reported⟩
    | error why => cases why <;> exact .finished (.error _) ⟨h, hs.reported⟩

theorem moves_resultOf : Moves f id (resultOf task) (resultOf task) := by
  refine .get_bind fun s s' hs => ?_
  rw [hs.stateOf]
  cases s.sched.stateOf task with
  | thrown v pos =>
    simp only [TaskState.mapPos, hs.render?]
    cases s.render? v <;> exact .throw rfl
  | fulfilled v => exact .pure rfl
  | failed e => exact .throw rfl
  | pending => exact .throw rfl

/-- A program with its positions moved runs as the program itself does. -/
theorem moves_run (fuel : ℕ) (program : Program) :
    Moves f (RunResult.mapPos f) (run fuel program) (run fuel (program.mapPos f)) := by
  have hcontrol : (Control.program (importsOf program.statements) program.statements).mapPos f =
      .program (importsOf (program.mapPos f).statements) (program.mapPos f).statements := by
    rw [Control.mapPos, ← importsOf_mapPos]
    rfl
  refine .bind (hcontrol ▸ moves_runMain) fun _ => .bind moves_reportAll fun _ => ?_
  refine .bind moves_resultOf fun _ => .get_bind fun s s' hs => .pure ?_
  rw [hs.bindings]
  rfl

/-! ## What is shown of a run -/

/-- A host whose positions are moved starts the same session, up to positions. -/
theorem alike_new (config : Config) {host : Host} (hhost : host.functions.All HostFunction.Blind) :
    (new config host).Alike f (new config (host.mapPos f)) := by
  have hglobals : (host.mapPos f).heap.newGlobals (host.mapPos f).names = _ :=
    host.heap.newGlobals_mapPos host.names
  have hsched : (Scheduler.fresh config.maxSteps : Scheduler Thread Value) =
      (Scheduler.fresh config.maxSteps).mapPos f (·.mapPos f) := by
    simp [Scheduler.fresh, Scheduler.mapPos]
  simp only [new, hglobals]
  exact ⟨⟨hsched, hhost, #[], rfl⟩, by simp⟩

end Session

/-- What a run of a program shows. -/
structure Observation where
  /-- what the program leaves behind, or the fault that ended it -/
  outcome : Except Fault RunResult
  output : String
  /-- how many turns the tasks took -/
  steps : ℕ
  /-- the labels of the tasks, in the order in which they were started -/
  tasks : List String
  /-- the names of the program with the texts of their values, where these have an end -/
  globals : List (String × Option String)
  /-- the rejections that the host was told of, in order -/
  reported : List Rejection

/-- The fault that ended a run, if one did. -/
def Observation.fault? (o : Observation) : Option Fault :=
  match o.outcome with
  | .ok _ => none
  | .error e => some e

/-- What a run shows, with its positions moved. -/
def Observation.mapPos (f : Position → Position) (o : Observation) : Observation :=
  { o with
    outcome := moveResult (Fault.mapPos f) (RunResult.mapPos f) o.outcome
    reported := o.reported.map (·.mapPos f) }

/-- What a run shows other than positions. -/
def Observation.unplaced (o : Observation) : Observation :=
  o.mapPos fun _ => .start

namespace Session

/-- What a session shows once a program has run. -/
def observe (outcome : Except Fault RunResult) (s : Session) : Observation where
  outcome
  output := s.world.output
  steps := s.sched.steps
  tasks := (List.range s.sched.tasks.size).map fun i => s.sched.labelOf ⟨i⟩
  globals := s.bindings.map fun e => (e.1, s.render? e.2.value)
  reported := s.reported.toList

/-- What a program shows that runs in a session of its own, if the fuel lasts. -/
def observeRun (fuel : ℕ) (config : Config) (host : Host) (program : Program) :
    Option Observation :=
  ((run fuel program).run (new config host)).map fun r => r.2.observe r.1

theorem Alike.observe {s s' : Session} (hs : s.Alike f s') (outcome : Except Fault RunResult) :
    s'.observe (moveResult (Fault.mapPos f) (RunResult.mapPos f) outcome) =
      (s.observe outcome).mapPos f := by
  obtain ⟨-, log, hworld⟩ := hs.machine.world
  have houtput : s'.world.output = s.world.output := by
    rw [world, hworld]
    rfl
  have hsteps : s'.sched.steps = s.sched.steps := by
    rw [sched, hs.machine.sched]
    rfl
  have htasks : s'.sched.tasks.size = s.sched.tasks.size := by
    rw [sched, hs.machine.sched]
    exact Array.size_map
  simp only [Session.observe, Observation.mapPos, houtput, hsteps, htasks, hs.labelOf, hs.bindings,
    hs.render?, hs.reported, Array.toList_map]

/-- A program whose positions are moved shows what the program itself shows, with the positions
    moved. -/
theorem observeRun_mapPos (fuel : ℕ) (config : Config) {host : Host}
    (hhost : host.functions.All HostFunction.Blind) (program : Program) :
    observeRun fuel config (host.mapPos f) (program.mapPos f) =
      (observeRun fuel config host program).map (·.mapPos f) := by
  have hrun := moves_run fuel program _ _ (alike_new (f := f) config hhost)
  unfold observeRun
  generalize (run fuel program).run (new config host) = r,
    (run fuel (program.mapPos f)).run (new config (host.mapPos f)) = r' at hrun
  cases hrun with
  | unfinished => rfl
  | finished out h => exact congrArg some (h.observe out)

/-- Positions never influence behaviour: programs that are equal up to their positions show the
    same, other than positions, on sessions of their own with the same configuration and the same
    host, whose functions look at no position either. Either both runs have an end within the fuel
    or neither has. -/
theorem observeRun_eq_of_unplaced_eq {p q : Program} (h : p.unplaced = q.unplaced) (fuel : ℕ)
    (config : Config) (host : Host) (hhost : host.functions.All HostFunction.Blind) :
    (observeRun fuel config host p).map (·.unplaced) =
      (observeRun fuel config host q).map (·.unplaced) := by
  calc (observeRun fuel config host p).map (·.unplaced)
    _ = observeRun fuel config (host.mapPos fun _ => .start) p.unplaced :=
        (observeRun_mapPos fuel config hhost p).symm
    _ = observeRun fuel config (host.mapPos fun _ => .start) q.unplaced := by rw [h]
    _ = (observeRun fuel config host q).map (·.unplaced) := observeRun_mapPos fuel config hhost q

/-- A function of the host that counts its calls, and marks each of them in an array that it gets
    and in the output. -/
def tally : HostFunction := fun c =>
  let calls := match c.memory with
    | .whole n => n + 1
    | _ => 1
  let changes := match c.args with
    | [.array r] => [HeapChange.setItems r ((c.heap.array r).push (.bool true))]
    | _ => []
  ⟨changes, "*", .whole calls, .ok (.value .null)⟩

/-- A host with this function. -/
def tallying : Host :=
  { Host.none 100 with
    heap := (Heap.empty.newFunction (.host "tally")).2
    functions := .ofList [("tally", tally)]
    memory := .whole 0
    names := [("tally", .function ⟨0⟩)] }

/-- A call of the host and then a name without a binding, all at one position. -/
def tallied (pos : Position) : Program :=
  ⟨[.expr pos (.call pos (.name pos "tally") [.array pos []]), .expr pos (.name pos "x")]⟩

theorem observeRun_unbound_anywhere :
    let run (pos : Position) := observeRun 20 .standard tallying (tallied pos)
    (tallied ⟨1, 1⟩).unplaced = (tallied ⟨2, 5⟩).unplaced ∧
      tallying.functions.All HostFunction.Blind ∧
      (run ⟨1, 1⟩).map (fun o => (o.output, o.fault?)) =
        some ("*", some (.located (.unbound "x") ⟨1, 1⟩)) ∧
      (run ⟨2, 5⟩).map (fun o => (o.output, o.fault?)) =
        some ("*", some (.located (.unbound "x") ⟨2, 5⟩)) ∧
      (run ⟨1, 1⟩).map (·.unplaced) = (run ⟨2, 5⟩).map (·.unplaced) :=
  have hblind : tallying.functions.All HostFunction.Blind :=
    List.forall_mem_singleton.mpr fun _ _ => rfl
  have hsame : (tallied ⟨1, 1⟩).unplaced = (tallied ⟨2, 5⟩).unplaced := rfl
  ⟨hsame, hblind, by decide +kernel, by decide +kernel,
    observeRun_eq_of_unplaced_eq hsame 20 .standard tallying hblind⟩

end Session

end CoScript
