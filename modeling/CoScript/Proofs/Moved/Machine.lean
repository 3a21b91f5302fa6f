import CoScript.Proofs.Moved.Evaluation

/-!
# Tasks look at no position

Tasks hold positions in the throws and faults that ended them, and hand them on to what waits for
them. If the bodies of tasks look at no position, then neither does a machine that runs them: it
gives the same turns to the same tasks.

Results:
* `Scheduler.mapPos`: a scheduler with its positions moved.
* `Behaviour.Moves`: bodies that look at no position.
* `Machine.Alike.tick`, `Machine.Alike.run`: a move and a run of a machine with moved positions.
* `moves_script`: the threads of a script look at no position.
-/

namespace CoScript

variable {β ν ω : Type} (f : Position → Position) (b : β → β)

/-! ## Tasks -/

/-- What a body gets, with its positions moved. -/
def Delivery.mapPos : Delivery ν → Delivery ν
  | .thrown v pos => .thrown v (pos.map f)
  | .failed e => .failed (e.mapPos f)
  | .value v => .value v

/-- A body in its place with its positions moved by `b`. -/
def Parked.mapPos (p : Parked β) : Parked β :=
  ⟨p.id, b p.body⟩

/-- A task with its positions moved. -/
def Task.mapPos (t : Task β ν) : Task β ν :=
  { t with state := t.state.mapPos f, waiters := t.waiters.map (·.mapPos b) }

/-- A body in the queue with its positions moved. -/
def Ready.mapPos (r : Ready β ν) : Ready β ν :=
  { r with parked := r.parked.mapPos b }

/-- What a body does, with its positions moved. -/
def Action.mapPos : Action β ν → Action β ν
  | .proceed body => .proceed (b body)
  | .await what body => .await what (b body)
  | .spawn name child parent => .spawn name (b child) fun id => b (parent id)
  | .finish v => .finish v
  | .throw v pos => .throw v (pos.map f)
  | .fail e => .fail (e.mapPos f)
  | .abort cause => .abort cause

/-- A scheduler with its positions moved. -/
def Scheduler.mapPos (s : Scheduler β ν) : Scheduler β ν :=
  { s with
    tasks := s.tasks.map (·.mapPos f b)
    ready := s.ready.map (·.mapPos b)
    running := s.running.map (·.mapPos b) }

namespace TaskState

variable (state : TaskState ν)

@[simp] theorem isSettled_mapPos : (state.mapPos f).isSettled = state.isSettled := by
  cases state <;> rfl

@[simp] theorem isRejected_mapPos : (state.mapPos f).isRejected = state.isRejected := by
  cases state <;> rfl

@[simp] theorem text_mapPos : (state.mapPos f).text = state.text := by
  cases state <;> rfl

end TaskState

namespace Scheduler

variable (s : Scheduler β ν) (id : TaskId)

theorem getElem?_mapPos (i : Nat) :
    (s.mapPos f b).tasks[i]? = s.tasks[i]?.map (·.mapPos f b) :=
  Array.getElem?_map

theorem nextId_mapPos : (s.mapPos f b).nextId = s.nextId := by
  simp [nextId, mapPos]

theorem labelOf_mapPos : (s.mapPos f b).labelOf id = s.labelOf id := by
  simp only [labelOf, nameOf, getElem?_mapPos]
  cases s.tasks[id.index]? <;> rfl

theorem stateOf_mapPos : (s.mapPos f b).stateOf id = (s.stateOf id).mapPos f := by
  simp only [stateOf, getElem?_mapPos]
  cases s.tasks[id.index]? <;> rfl

theorem isObserved_mapPos : (s.mapPos f b).isObserved id = s.isObserved id := by
  simp only [isObserved, getElem?_mapPos]
  cases s.tasks[id.index]? <;> rfl

theorem modify_mapPos (g g' : Task β ν → Task β ν)
    (h : ∀ t, (g t).mapPos f b = g' (t.mapPos f b)) :
    (s.modify id g).mapPos f b = (s.mapPos f b).modify id g' := by
  simp only [modify, mapPos]
  congr 1
  exact map_modify s.tasks id.index g g' h

theorem enqueue_mapPos (p : Parked β) (a : Awaited ν) :
    (s.enqueue p a).mapPos f b = (s.mapPos f b).enqueue (p.mapPos b) a := by
  simp [enqueue, mapPos, Ready.mapPos]

theorem start_mapPos (name : String) (body : β) (observed : Bool) :
    (s.start name body observed).mapPos f b = (s.mapPos f b).start name (b body) observed := by
  simp [start, mapPos, Task.mapPos, TaskState.mapPos, Parked.mapPos, nextId]

theorem suspend_mapPos [Inhabited ν] (p : Parked β) (a : Awaited ν) :
    (s.mapPos f b).suspend (p.mapPos b) a =
      ((s.suspend p a).1.mapPos f b, (s.suspend p a).2) := by
  have hlabel : (s.mapPos f b).labelOf (p.mapPos b).id = s.labelOf p.id :=
    s.labelOf_mapPos f b p.id
  cases a with
  | value v => simp only [suspend, enqueue_mapPos, hlabel]
  | task id =>
    simp only [suspend, getElem?_mapPos, hlabel]
    cases s.tasks[id.index]? with
    | none => simp only [Option.map_none, enqueue_mapPos]
    | some t =>
      have hstate : (t.mapPos f b).state.isSettled = t.state.isSettled :=
        t.state.isSettled_mapPos f
      simp only [Option.map_some, hstate]
      split
      · rw [enqueue_mapPos, modify_mapPos f b s id _ (fun t => { t with observed := true })]
        exact fun _ => rfl
      · rw [modify_mapPos f b s id _ (fun t =>
          { t with observed := true, waiters := t.waiters ++ [p.mapPos b] }), labelOf_mapPos]
        exact fun t => by simp [Task.mapPos]

theorem settle_mapPos (state : TaskState ν) :
    (s.mapPos f b).settle id (state.mapPos f) = (s.settle id state).mapPos f b := by
  have htasks : (s.tasks.modify id.index fun t => { t with state, waiters := [] }).map
      (·.mapPos f b) = (s.mapPos f b).tasks.modify id.index
        fun t => { t with state := state.mapPos f, waiters := [] } :=
    map_modify s.tasks id.index _ _ fun _ => rfl
  simp only [settle, getElem?_mapPos, ← htasks]
  cases s.tasks[id.index]? with
  | none => rfl
  | some t => simp [mapPos, Task.mapPos, Ready.mapPos]

theorem next?_mapPos [Inhabited ν] :
    (s.mapPos f b).next? =
      s.next?.map fun r => (r.1.mapPos b, r.2.1.mapPos f, r.2.2.mapPos f b) := by
  have hdelivery (a : Awaited ν) : (s.mapPos f b).delivery a = (s.delivery a).mapPos f := by
    cases a with
    | value v => rfl
    | task id =>
      simp only [delivery, stateOf_mapPos]
      cases s.stateOf id <;> rfl
  cases hr : s.ready with
  | nil => simp [next?, mapPos, hr]
  | cons r rest =>
    have hr' : (s.mapPos f b).ready = r.mapPos b :: rest.map (·.mapPos b) := by simp [mapPos, hr]
    simp only [next?, hr, hr', hdelivery]
    rfl

theorem report_mapPos : (s.mapPos f b).report = s.report.mapPos f b := by
  simp only [report, isObserved_mapPos]
  rfl

end Scheduler

/-! ## Machines -/

/-- Bodies that look at no position: in worlds that are alike by `R` they do the same, up to the
    positions that `f` and `b` move. What they do with a notice does not matter to `R`. -/
structure Behaviour.Moves (R : ω → ω → Prop) (B : Behaviour β ν ω) : Prop where
  act {w w' : ω} (tasks : Array (Task β ν)) (body : β) (hw : R w w') :
    (B.act w' (tasks.map (·.mapPos f b)) (b body)).1 = (B.act w tasks body).1.mapPos f b ∧
      R (B.act w tasks body).2 (B.act w' (tasks.map (·.mapPos f b)) (b body)).2
  resume (body : β) (got : Delivery ν) : B.resume (b body) (got.mapPos f) = b (B.resume body got)
  note {w w' : ω} (n n' : Notice) (hw : R w w') : R (B.note n w) (B.note n' w')

/-- The second machine is the first one with its positions moved, in a world that is alike. -/
structure Machine.Alike (R : ω → ω → Prop) (m m' : Machine β ν ω) : Prop where
  sched : m'.sched = m.sched.mapPos f b
  world : R m.world m'.world

/-- A move comes to the same up to positions. -/
inductive Progress.Alike {σ : Type} (R : σ → σ → Prop) : Progress σ → Progress σ → Prop
  | next {s s' : σ} (h : R s s') : Alike R (.next s) (.next s')
  | idle {s s' : σ} (h : R s s') : Alike R (.idle s) (.idle s')
  | halted (why : Halt) {s s' : σ} (h : R s s') :
    Alike R (.halted why s) (.halted (why.mapPos f) s')

/-- Two runs come to the same up to positions: `r` moves those of an error and `g` those of a
    result. Neither run has an end if the other has none. -/
inductive RunsAlike {ε α σ : Type} (r : ε → ε) (g : α → α) (R : σ → σ → Prop) :
    Option (Except ε α × σ) → Option (Except ε α × σ) → Prop
  | unfinished : RunsAlike r g R none none
  | finished (out : Except ε α) {s s' : σ} (h : R s s') :
    RunsAlike r g R (some (out, s)) (some (moveResult r g out, s'))

namespace Machine.Alike

variable {f b} {R : ω → ω → Prop} {B : Behaviour β ν ω} {m m' : Machine β ν ω}

theorem withRunning (hm : m.Alike f b R m') (running : List (Parked β)) :
    (m.withRunning running).Alike f b R (m'.withRunning (running.map (·.mapPos b))) := by
  refine ⟨?_, hm.world⟩
  simp only [Machine.withRunning, hm.sched]
  rfl

variable (hB : B.Moves f b R)
include hB

theorem settle (hm : m.Alike f b R m') (id : TaskId) (state : TaskState ν) :
    (Machine.settle B m id state).Alike f b R (Machine.settle B m' id (state.mapPos f)) := by
  refine ⟨?_, hB.note _ _ hm.world⟩
  simp only [Machine.settle, hm.sched, Scheduler.settle_mapPos]

theorem fail (hm : m.Alike f b R m') (id : TaskId) (e : Fault) :
    (Machine.fail B m id e).Alike f b R (Machine.fail B m' id (e.mapPos f)) := by
  have hlabel : m'.sched.labelOf id = m.sched.labelOf id := by
    rw [hm.sched, Scheduler.labelOf_mapPos]
  have htold (n n' : Notice) : Alike f b R { m with world := B.note n m.world }
      { m' with world := B.note n' m'.world } := ⟨hm.sched, hB.note n n' hm.world⟩
  simp only [Machine.fail, hlabel]
  exact (htold _ _).settle hB id (.failed (e.inTask (m.sched.labelOf id)))

theorem start (hm : m.Alike f b R m') (name : String) (body : β) (observed : Bool) :
    (Machine.start B m name body observed).Alike f b R
      (Machine.start B m' name (b body) observed) := by
  refine ⟨?_, hB.note _ _ hm.world⟩
  simp only [Machine.start, hm.sched, Scheduler.start_mapPos]

variable [Inhabited ν]

theorem suspend (hm : m.Alike f b R m') (p : Parked β) (a : Awaited ν) :
    (Machine.suspend B m p a).Alike f b R (Machine.suspend B m' (p.mapPos b) a) := by
  have h := m.sched.suspend_mapPos f b p a
  simp only [Machine.suspend, hm.sched, h]
  exact ⟨rfl, hB.note _ _ hm.world⟩

theorem perform (hm : m.Alike f b R m') (id : TaskId) (outer : List (Parked β))
    (action : Action β ν) :
    (Machine.perform B m id outer action).Alike f (Alike f b R)
      (Machine.perform B m' id (outer.map (·.mapPos b)) (action.mapPos f b)) := by
  have hmain : m'.sched.main = m.sched.main := by
    rw [hm.sched]
    rfl
  have hnext : m'.sched.nextId = m.sched.nextId := by rw [hm.sched, Scheduler.nextId_mapPos]
  have hout := hm.withRunning outer
  cases action with
  | proceed body => exact .next (hm.withRunning (⟨id, body⟩ :: outer))
  | await what body => exact .next (hout.suspend hB ⟨id, body⟩ what)
  | spawn name child parent =>
    have hparent := (hm.withRunning (⟨id, parent m.sched.nextId⟩ :: outer)).start hB
      name child false
    simp only [Machine.perform, Action.mapPos, hnext]
    exact .next hparent
  | finish v => exact .next (hout.settle hB id (.fulfilled v))
  | throw v pos => exact .next (hout.settle hB id (.thrown v pos))
  | fail e =>
    simp only [Machine.perform, Action.mapPos, hmain]
    split
    · exact .halted (.fault e) hout
    · exact .next (hout.fail hB id e)
  | abort cause => exact .halted (.aborted cause) (hm.withRunning [])

theorem act (hm : m.Alike f b R m') :
    (Machine.act B m).Alike f (Alike f b R) (Machine.act B m') := by
  obtain ⟨sched, world⟩ := m
  obtain ⟨sched', world'⟩ := m'
  obtain ⟨hsched, hworld⟩ := hm
  dsimp only at hsched hworld
  subst hsched
  cases hr : sched.running with
  | nil =>
    have hr' : (sched.mapPos f b).running = [] := by simp [Scheduler.mapPos, hr]
    simp only [Machine.act, hr, hr']
    exact .idle ⟨rfl, hworld⟩
  | cons p outer =>
    have hr' : (sched.mapPos f b).running = p.mapPos b :: outer.map (·.mapPos b) := by
      simp [Scheduler.mapPos, hr]
    obtain ⟨haction, hacted⟩ := hB.act sched.tasks p.body hworld
    simp only [Machine.act, hr, hr']
    have hm : Alike f b R ⟨sched, _⟩ ⟨sched.mapPos f b, _⟩ := ⟨rfl, hacted⟩
    have h := hm.perform hB p.id outer (B.act world sched.tasks p.body).1
    rw [← haction] at h
    exact h

theorem dispatch (hm : m.Alike f b R m') :
    (Machine.dispatch B m).Alike f (Alike f b R) (Machine.dispatch B m') := by
  have hlimit : m'.sched.maxSteps = m.sched.maxSteps ∧ m'.sched.steps = m.sched.steps := by
    rw [hm.sched]
    exact ⟨rfl, rfl⟩
  have hnext : m'.sched.next? = _ := hm.sched ▸ m.sched.next?_mapPos f b
  simp only [Machine.dispatch, hnext, hlimit]
  cases m.sched.next? with
  | none => exact .idle hm
  | some turn =>
    obtain ⟨p, got, sched⟩ := turn
    dsimp only [Option.map_some]
    split
    · exact .halted (.fault (.nowhere (.stepLimit m.sched.maxSteps))) hm
    · have hturn : Alike f b R { m with sched } { m' with sched := sched.mapPos f b } :=
        ⟨rfl, hm.world⟩
      have hbody := hB.resume p.body got
      rw [Parked.mapPos, hbody]
      exact .next (hturn.withRunning [⟨p.id, B.resume p.body got⟩])

/-- A move comes to the same up to positions. -/
theorem tick (hm : m.Alike f b R m') :
    (Machine.tick B m).Alike f (Alike f b R) (Machine.tick B m') := by
  have hrunning : m'.sched.running.isEmpty = m.sched.running.isEmpty := by
    rw [hm.sched]
    exact List.isEmpty_map
  simp only [Machine.tick, hrunning]
  split
  · exact hm.dispatch hB
  · exact hm.act hB

theorem iterate (fuel : Nat) (hm : m.Alike f b R m') :
    RunsAlike (Halt.mapPos f) id (Alike f b R) (Machine.iterate (Machine.tick B) fuel m)
      (Machine.iterate (Machine.tick B) fuel m') := by
  induction fuel generalizing m m' with
  | zero => exact .unfinished
  | succ fuel ih =>
    have hmove := hm.tick hB
    unfold Machine.iterate
    generalize Machine.tick B m = moved, Machine.tick B m' = moved' at hmove
    cases hmove with
    | next h => exact ih h
    | idle h => exact .finished (.ok ()) h
    | halted why h => exact .finished (.error why) h

theorem drain (fuel : Nat) (hm : m.Alike f b R m') :
    RunsAlike (Halt.mapPos f) id (Alike f b R) (Machine.drain B fuel m)
      (Machine.drain B fuel m') := by
  have hrun := hm.iterate hB fuel
  unfold Machine.drain
  generalize Machine.iterate (Machine.tick B) fuel m = run,
    Machine.iterate (Machine.tick B) fuel m' = run' at hrun
  cases hrun with
  | unfinished => exact .unfinished
  | finished out h =>
    cases out with
    | error why => exact .finished (.error why) h
    | ok u =>
      refine .finished (.ok ()) ⟨?_, h.world⟩
      simp only [h.sched, Scheduler.report_mapPos]

omit [Inhabited ν] in
theorem startMain (hm : m.Alike f b R m') (name : String) (body : β) :
    (Machine.startMain B name body m).Alike f b R (Machine.startMain B name (b body) m') := by
  have hnext : m'.sched.nextId = m.sched.nextId := by rw [hm.sched, Scheduler.nextId_mapPos]
  have hstart := hm.start hB name body true
  refine ⟨?_, hstart.world⟩
  simp only [Machine.startMain, hnext, hstart.sched]
  rfl

omit hB [Inhabited ν] in
theorem conclude (hm : m.Alike f b R m') (main : TaskId) :
    Machine.conclude main m' = moveResult (Halt.mapPos f) id (Machine.conclude main m) := by
  simp only [Machine.conclude, hm.sched, Scheduler.stateOf_mapPos, TaskState.isSettled_mapPos,
    Scheduler.labelOf_mapPos]
  split <;> rfl

/-- A run comes to the same up to positions. -/
theorem run (fuel : Nat) (hm : m.Alike f b R m') (name : String) (body : β) :
    RunsAlike (Halt.mapPos f) id (Alike f b R) (Machine.run B fuel name body m)
      (Machine.run B fuel name (b body) m') := by
  have hnext : m'.sched.nextId = m.sched.nextId := by rw [hm.sched, Scheduler.nextId_mapPos]
  have hrun := (hm.startMain hB name body).drain hB fuel
  simp only [Machine.run, hnext]
  generalize Machine.drain B fuel (Machine.startMain B name body m) = run,
    Machine.drain B fuel (Machine.startMain B name (b body) m') = run' at hrun
  cases hrun with
  | unfinished => exact .unfinished
  | finished out h =>
    cases out with
    | error why => exact .finished (.error why) h
    | ok u =>
      dsimp only [moveResult]
      rw [h.conclude]
      exact .finished _ h

end Machine.Alike

/-! ## Threads as bodies -/

theorem Promises.ofTasks_mapPos (b : Thread → Thread) (tasks : Array (Task Thread Value)) :
    Promises.ofTasks (tasks.map (·.mapPos f b)) = (Promises.ofTasks tasks).mapPos f := by
  have hstate (id : TaskId) : (Promises.ofTasks (tasks.map (·.mapPos f b))).state id =
      ((Promises.ofTasks tasks).state id).mapPos f := by
    simp only [Promises.ofTasks, Array.getElem?_map]
    cases tasks[id.index]? <;> rfl
  simp only [Promises.mapPos, ← hstate]
  simp [Promises.ofTasks]

theorem Thread.action_mapPos (t : Thread) (move : Move) :
    (t.mapPos f).action (move.mapPos f) = (t.action move).mapPos f (·.mapPos f) := by
  cases move with
  | spawn name child stack =>
    have hdepth : (t.mapPos f).depth = t.depth := t.depth_mapPos f
    simp only [Thread.action, Move.mapPos, hdepth]
    rfl
  | _ => rfl

/-- The threads of a script look at no position. -/
theorem moves_script : script.Moves f (·.mapPos f) (World.Alike f) where
  act := by
    intro w w' tasks t hw
    obtain ⟨hout, hafter⟩ := @t.moves_step f (.ofTasks tasks) w w' hw
    rw [← Promises.ofTasks_mapPos f (·.mapPos f)] at hout hafter
    change (Thread.act w' _ (t.mapPos f)).1 = (Thread.act w tasks t).1.mapPos f _ ∧
      World.Alike f (Thread.act w tasks t).2 (Thread.act w' _ (t.mapPos f)).2
    unfold Thread.act
    generalize (t.step (.ofTasks tasks)).run w = done,
      ((t.mapPos f).step (.ofTasks _)).run w' = done' at hout hafter
    obtain ⟨out, w₁⟩ := done
    obtain ⟨out', w₁'⟩ := done'
    obtain rfl : out' = _ := hout
    obtain (e | cause) | move := out
    · exact ⟨rfl, hafter⟩
    · exact ⟨rfl, hafter⟩
    · exact ⟨t.action_mapPos f move, hafter⟩
  resume := by
    intro t got
    cases got <;> rfl
  note := by
    intro w w' n n' hw
    exact hw.record .debug .scheduler n.text n'.text

end CoScript
