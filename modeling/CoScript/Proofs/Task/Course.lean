import CoScript.Proofs.Task.Uses

/-!
# Courses of a machine

The calls of a host tell what a machine has done once a call is over. A course tells it at every
moment, also in a call that never ends: it is made of single moves, and of what a host does between
its calls. For each move it keeps the event and the failure that a body lets out, before a task puts
its label on it.

Results:
* `Deed`: what happens in one move, and the failure that a body lets out with it.
* `Machine.Course`: the moves of a machine and the acts of its host, one after the other.
* `Machine.Course.lasting`: what no move takes away holds at every moment.
* `Machine.Uses.course`: the calls of a host are such a course.
-/

namespace CoScript

/-- What happens in one move, and the failure that a body lets out with it, if it does. -/
structure Deed (ν : Type) where
  event : Event ν
  letOut : Option (TaskId × Delivery ν)

/-- The events of deeds. -/
def events {ν : Type} (ds : List (Deed ν)) : List (Event ν) :=
  ds.map (·.event)

@[simp] theorem events_nil {ν : Type} : events ([] : List (Deed ν)) = [] := rfl

@[simp] theorem events_cons {ν : Type} (d : Deed ν) (ds : List (Deed ν)) :
    events (d :: ds) = d.event :: events ds := rfl

@[simp] theorem events_append {ν : Type} (ds ds' : List (Deed ν)) :
    events (ds ++ ds') = events ds ++ events ds' :=
  List.map_append

namespace Machine

variable {β ν ω : Type} [Inhabited ν] (B : Behaviour β ν ω)

/-- The failure that the innermost running body lets out with its next action. -/
def letOut (m : Machine β ν ω) : Option (TaskId × Delivery ν) :=
  match m.sched.running with
  | [] => none
  | ⟨id, body⟩ :: _ =>
    match (B.act m.world m.sched.tasks body).1 with
    | .throw v pos => some (id, .thrown v pos)
    | .fail f => some (id, .failed f)
    | _ => none

/-- What happens in the next move of a machine. -/
def deed (m : Machine β ν ω) : Deed ν :=
  ⟨m.event B, m.letOut B⟩

/-- What happens in moves until nothing is left to do or the run is cut short. -/
def deeds (move : Machine β ν ω → Progress (Machine β ν ω)) : ℕ → Machine β ν ω → List (Deed ν)
  | 0, _ => []
  | fuel + 1, m =>
    match move m with
    | .next m' => m.deed B :: deeds move fuel m'
    | .idle _ => []
    | .halted .. => [m.deed B]

/-- The moves of a machine one after the other, and what a host does while no body runs: it starts
    tasks, begins a run, ends a drain or a run. Each host that makes its calls one after the other
    takes such a course, and the course may stop at any moment. -/
inductive Course (m₀ : Machine β ν ω) : List (Deed ν) → Machine β ν ω → Prop
  | refl : Course m₀ [] m₀
  | spawn {ds : List (Deed ν)} {m : Machine β ν ω} (name : String) (body : β) (h : Course m₀ ds m)
    (hr : m.sched.running = []) :
    Course m₀ (ds ++ [⟨.started m.sched.nextId false, none⟩]) (start B m name body false)
  | run {ds : List (Deed ν)} {m : Machine β ν ω} (name : String) (body : β) (h : Course m₀ ds m)
    (hr : m.sched.running = []) :
    Course m₀ (ds ++ [⟨.started m.sched.nextId true, none⟩]) (startMain B name body m)
  | next {ds : List (Deed ν)} {m m' : Machine β ν ω} (h : Course m₀ ds m)
    (hmove : tick B m = .next m') : Course m₀ (ds ++ [m.deed B]) m'
  | halted {ds : List (Deed ν)} {m m' : Machine β ν ω} {why : Halt} (h : Course m₀ ds m)
    (hmove : tick B m = .halted why m') : Course m₀ (ds ++ [m.deed B]) m'
  | drained {ds : List (Deed ν)} {m m' : Machine β ν ω} (h : Course m₀ ds m)
    (hmove : tick B m = .idle m') :
    Course m₀ (ds ++ [⟨.drained, none⟩]) { m with sched := m.sched.report }
  | returned {ds : List (Deed ν)} {m : Machine β ν ω} {id : TaskId} (h : Course m₀ ds m)
    (hr : m.sched.running = []) (hm : m.sched.main = some id)
    (hs : (m.sched.stateOf id).isSettled) : Course m₀ (ds ++ [⟨.returned id, none⟩]) m

variable {B} {m₀ m m' : Machine β ν ω} {ds ds' : List (Deed ν)}

theorem Course.trans (h : Course B m₀ ds m) (h' : Course B m ds' m') :
    Course B m₀ (ds ++ ds') m' := by
  induction h' with
  | refl => rwa [List.append_nil]
  | spawn name body _ hr ih =>
    rw [← List.append_assoc]
    exact .spawn name body ih hr
  | run name body _ hr ih =>
    rw [← List.append_assoc]
    exact .run name body ih hr
  | next _ hmove ih =>
    rw [← List.append_assoc]
    exact .next ih hmove
  | halted _ hmove ih =>
    rw [← List.append_assoc]
    exact .halted ih hmove
  | drained _ hmove ih =>
    rw [← List.append_assoc]
    exact .drained ih hmove
  | returned _ hr hm hs ih =>
    rw [← List.append_assoc]
    exact .returned ih hr hm hs

/-! ## Properties that hold at every moment -/

/-- A property that no move takes away holds at every moment. -/
theorem Course.lasting {I : List (Event ν) → Scheduler β ν → Prop} (hI : Scheduler.Lasting I)
    (h : Course B m₀ ds m) (h₀ : I [] m₀.sched) (hm₀ : m₀.sched.MainOutermost) :
    I (events ds) m.sched ∧ m.sched.MainOutermost := by
  have step {ds : List (Deed ν)} {m : Machine β ν ω} {s : Scheduler β ν} {d : Deed ν}
      (ih : I (events ds) m.sched ∧ m.sched.MainOutermost) (hstep : m.sched.Step d.event s) :
      I (events (ds ++ [d])) s ∧ s.MainOutermost := by
    rw [events_append]
    exact ⟨hI.step ih.1 hstep, ih.2.step hstep⟩
  induction h with
  | refl => exact ⟨h₀, hm₀⟩
  | spawn name body _ hr ih => exact step ih (start_step B name body hr)
  | run name body _ hr ih => exact step ih (startMain_step B name body hr)
  | next _ hmove ih => exact step ih (tick_next hmove)
  | @halted ds m m' why _ hmove ih =>
    cases why with
    | fault f => exact step ih (faithful_tick.halted hmove ih.2).1
    | aborted =>
      obtain ⟨hevent, hsched⟩ := tick_aborted hmove
      rw [events_append, hsched]
      simp only [events_cons, events_nil, deed, hevent]
      exact ⟨hI.dropped ih.1, ih.2.dropped⟩
  | drained _ hmove ih =>
    obtain ⟨-, hr, hq⟩ := tick_idle hmove
    exact step ih (.drain hr hq)
  | returned _ hr hm hs ih => exact step ih (.return hr hm hs)

/-- A property that no move takes away holds at every moment of a fresh machine. -/
theorem Course.lasting_fresh {I : List (Event ν) → Scheduler β ν → Prop} (hI : Scheduler.Lasting I)
    {maxSteps : ℕ} {world : ω} (h : Course B ⟨.fresh maxSteps, world⟩ ds m)
    (h₀ : I [] (.fresh maxSteps)) : I (events ds) m.sched :=
  (h.lasting hI h₀ (Scheduler.mainOutermost_fresh maxSteps)).1

/-! ## Calls are courses -/

section Calls

variable {fuel : ℕ} {name : String} {body : β}

variable (B) in
/-- A way to move that takes no other moves than the machine does. -/
structure Ticks (move : Machine β ν ω → Progress (Machine β ν ω)) : Prop where
  next : ∀ {m m'}, move m = .next m' → tick B m = .next m'
  halted : ∀ {m why m'}, move m = .halted why m' → tick B m = .halted why m'

theorem ticks_tick : Ticks B (tick B) :=
  ⟨id, id⟩

theorem ticks_act : Ticks B (act B) := by
  have hact {m : Machine β ν ω} (hr : m.sched.running ≠ []) : tick B m = act B m := by
    rw [tick, if_neg (by simpa using hr)]
  have hrest {m : Machine β ν ω} (hr : m.sched.running = []) : act B m = .idle m := by
    obtain ⟨s, w⟩ := m
    simp only at hr
    simp [act, hr]
  exact ⟨fun h => (hact fun hr => by simp [hrest hr] at h).trans h,
    fun h => (hact fun hr => by simp [hrest hr] at h).trans h⟩

variable {move : Machine β ν ω → Progress (Machine β ν ω)}

theorem events_deeds (move : Machine β ν ω → Progress (Machine β ν ω)) (fuel : ℕ)
    (m : Machine β ν ω) : events (deeds B move fuel m) = trace B move fuel m := by
  induction fuel generalizing m with
  | zero => rfl
  | succ fuel ih =>
    unfold deeds trace
    cases move m with
    | next m' => simp [ih, deed]
    | idle m' => rfl
    | halted why m' => rfl

/-- Moves go on with a course, also when they do not come to an end. -/
theorem Course.moves (hmove : Ticks B move) (hf : Faithful B move) (h : Course B m₀ ds m)
    (fuel : ℕ) : ∃ m', Course B m₀ (ds ++ deeds B move fuel m) m' ∧
      ∀ out m'', iterate move fuel m = some (out, m'') → m'' = m' := by
  induction fuel generalizing ds m with
  | zero => exact ⟨m, by rwa [deeds, List.append_nil], by simp [iterate]⟩
  | succ fuel ih =>
    unfold deeds iterate
    cases hnext : move m with
    | next m₁ =>
      obtain ⟨m', hm', hend⟩ := ih (h.next (hmove.next hnext))
      rw [List.append_assoc] at hm'
      exact ⟨m', hm', hend⟩
    | idle m₁ =>
      obtain ⟨rfl, -⟩ := hf.idle hnext
      refine ⟨m₁, by rwa [List.append_nil], fun out m'' hend => ?_⟩
      exact (Prod.mk.inj (Option.some.inj hend)).2.symm
    | halted why m₁ =>
      refine ⟨m₁, h.halted (hmove.halted hnext), fun out m'' hend => ?_⟩
      exact (Prod.mk.inj (Option.some.inj hend)).2.symm

/-- A call to start a task goes on with a course. -/
theorem Course.spawn_call (h : Course B m₀ ds m) (hr : m.sched.running = [])
    {out : Except Halt TaskId} (hout : Machine.spawn B fuel name body m = some (out, m')) :
    ∃ ds', events ds' = spawnEvents B fuel name body m ∧ Course B m₀ (ds ++ ds') m' := by
  obtain ⟨m₁, hm₁, hend⟩ := (h.spawn name body hr).moves ticks_act faithful_act fuel
  obtain ⟨ended, hi⟩ := spawn_eq_some hout
  obtain rfl := hend _ _ hi
  rw [List.append_assoc] at hm₁
  exact ⟨_, by simp [spawnEvents, events_deeds], hm₁⟩

/-- A call to drain the queue goes on with a course. -/
theorem Course.drain_call (h : Course B m₀ ds m) {out : Except Halt Unit}
    (hout : drain B fuel m = some (out, m')) :
    ∃ ds', events ds' = drainEvents B fuel m ∧ Course B m₀ (ds ++ ds') m' := by
  obtain ⟨m₁, hm₁, hend⟩ := h.moves ticks_tick faithful_tick fuel
  cases out with
  | error why =>
    obtain ⟨hi, hevents⟩ := drain_eq_error hout
    obtain rfl := hend _ _ hi
    exact ⟨_, by rw [events_deeds, hevents], hm₁⟩
  | ok u =>
    obtain ⟨m₂, hi, -, -, -, hevents⟩ := drain_eq_ok hout
    obtain rfl := hend _ _ hi
    have hm' : m' = { m₂ with sched := m₂.sched.report } := by
      simpa [drain, hi, eq_comm] using hout
    refine ⟨deeds B (tick B) fuel m ++ [⟨.drained, none⟩], ?_, ?_⟩
    · simp [events_deeds, hevents]
    · rw [hm', ← List.append_assoc]
      exact hm₁.drained (faithful_tick.idle_iterate hi)

/-- A call to run a main task goes on with a course. -/
theorem Course.run_call (h : Course B m₀ ds m) (hr : m.sched.running = [])
    (hm : m.sched.MainOutermost) {out : Except Halt TaskId}
    (hout : Machine.run B fuel name body m = some (out, m')) :
    ∃ ds', events ds' = runEvents B fuel name body m ∧ Course B m₀ (ds ++ ds') m' := by
  have hmain : (startMain B name body m).sched.main = some m.sched.nextId := rfl
  obtain ⟨ended, hd, hended⟩ := run_eq_some hout
  obtain ⟨ds', hevents, hds'⟩ := (h.run name body hr).drain_call hd
  rw [List.append_assoc] at hds'
  have hbegin : events ([⟨.started m.sched.nextId true, none⟩] ++ ds') =
      .started m.sched.nextId true :: drainEvents B fuel (startMain B name body m) := by
    rw [events_append, hevents]
    rfl
  unfold runEvents
  rw [hout]
  cases ended with
  | error why =>
    obtain rfl : out = .error why := hended
    exact ⟨_, by simpa using hbegin, hds'⟩
  | ok u =>
    obtain rfl : out = conclude m.sched.nextId m' := hended
    obtain ⟨-, hr', hmain', -⟩ := drain_steps (hm.step (startMain_step B name body hr)) hd (by simp)
    cases hs : (m'.sched.stateOf m.sched.nextId).isSettled with
    | false => exact ⟨_, by simpa [conclude, hs] using hbegin, hds'⟩
    | true =>
      have hreturned := hds'.returned hr' (hmain'.trans hmain) hs
      rw [List.append_assoc] at hreturned
      refine ⟨_, ?_, hreturned⟩
      rw [events_append, hbegin]
      simp [conclude, hs]

/-- The calls of a host on a fresh machine are a course. -/
theorem Uses.course {maxSteps : ℕ} {world : ω} {es : List (Event ν)}
    (h : Uses B ⟨.fresh maxSteps, world⟩ es m) :
    ∃ ds, events ds = es ∧ Course B ⟨.fresh maxSteps, world⟩ ds m := by
  have rests {es : List (Event ν)} {m : Machine β ν ω} (h : Uses B ⟨.fresh maxSteps, world⟩ es m) :
      Rests (fun _ _ => True) es m.sched :=
    h.lasting ⟨fun _ _ => trivial, fun _ => trivial⟩ trivial
  induction h with
  | none => exact ⟨[], rfl, .refl⟩
  | spawn h hout ih =>
    obtain ⟨ds, rfl, hds⟩ := ih
    obtain ⟨ds', hevents, hds'⟩ := hds.spawn_call (rests h).running_nil hout
    exact ⟨ds ++ ds', by rw [events_append, hevents], hds'⟩
  | run h hout ih =>
    obtain ⟨ds, rfl, hds⟩ := ih
    obtain ⟨ds', hevents, hds'⟩ :=
      hds.run_call (rests h).running_nil (rests h).mainOutermost hout
    exact ⟨ds ++ ds', by rw [events_append, hevents], hds'⟩
  | drain _ hout ih =>
    obtain ⟨ds, rfl, hds⟩ := ih
    obtain ⟨ds', hevents, hds'⟩ := hds.drain_call hout
    exact ⟨ds ++ ds', by rw [events_append, hevents], hds'⟩

end Calls

end Machine

end CoScript
