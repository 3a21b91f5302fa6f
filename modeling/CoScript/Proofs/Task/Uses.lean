import CoScript.Proofs.Task.History

/-!
# Histories in which tasks are given up

When a body gives up, all running bodies are dropped, and their tasks stay as they are. The host
learns of it and may go on to call the machine.

Results:
* `Machine.Uses`: the calls of a host one after the other, whatever they end in.
* `Scheduler.Lasting`: a property of the tasks and their history that no move takes away.
* `Machine.Uses.lasting`: such a property holds after all calls on a fresh machine.
-/

namespace CoScript

namespace Scheduler

variable {β ν : Type} [Inhabited ν]

/-- A property of the tasks and their history that no move takes away, not even when all running
    bodies are dropped. -/
structure Lasting (I : List (Event ν) → Scheduler β ν → Prop) : Prop where
  step : ∀ {es : List (Event ν)} {e : Event ν} {s s' : Scheduler β ν}, I es s → Step s e s' →
    I (es ++ [e]) s'
  dropped : ∀ {es : List (Event ν)} {s : Scheduler β ν}, I es s →
    I (es ++ [.aborted]) { s with running := [] }

omit [Inhabited ν] in
theorem MainOutermost.dropped {s : Scheduler β ν} (h : s.MainOutermost) :
    ({ s with running := [] } : Scheduler β ν).MainOutermost :=
  ⟨h.exists_main, by simp⟩

end Scheduler

namespace Machine

variable {β ν ω : Type} [Inhabited ν] (B : Behaviour β ν ω)

/-- Calls of a host one after the other on a machine, with their events and the machine that they
    leave. A call may end with a result or a fault, or with a body that gives up. -/
inductive Uses (m₀ : Machine β ν ω) : List (Event ν) → Machine β ν ω → Prop
  | none : Uses m₀ [] m₀
  | spawn {es : List (Event ν)} {m m' : Machine β ν ω} {fuel : ℕ} {name : String} {body : β}
      {out : Except Halt TaskId} (h : Uses m₀ es m)
      (hout : spawn B fuel name body m = some (out, m')) :
      Uses m₀ (es ++ spawnEvents B fuel name body m) m'
  | run {es : List (Event ν)} {m m' : Machine β ν ω} {fuel : ℕ} {name : String} {body : β}
      {out : Except Halt TaskId} (h : Uses m₀ es m)
      (hout : run B fuel name body m = some (out, m')) :
      Uses m₀ (es ++ runEvents B fuel name body m) m'
  | drain {es : List (Event ν)} {m m' : Machine β ν ω} {fuel : ℕ} {out : Except Halt Unit}
      (h : Uses m₀ es m) (hout : drain B fuel m = some (out, m')) :
      Uses m₀ (es ++ drainEvents B fuel m) m'

variable {B} {m m' : Machine β ν ω}

/-! ## Giving up -/

theorem act_aborted {cause : FaultCause} (h : act B m = .halted (.aborted cause) m') :
    m.event B = .aborted ∧ m'.sched = { m.sched with running := [] } := by
  obtain ⟨s, w⟩ := m
  simp only [act, event] at h ⊢
  cases hr : s.running with
  | nil => simp [hr] at h
  | cons r outer =>
    simp only [hr] at h ⊢
    cases ha : (B.act w s.tasks r.body).1 with
    | abort =>
      simp only [ha, perform, Progress.halted.injEq] at h ⊢
      obtain ⟨-, rfl⟩ := h
      exact ⟨trivial, rfl⟩
    | fail f =>
      simp only [ha, perform] at h
      split at h <;> simp at h
    | _ => simp [ha, perform] at h

theorem tick_aborted {cause : FaultCause} (h : tick B m = .halted (.aborted cause) m') :
    m.event B = .aborted ∧ m'.sched = { m.sched with running := [] } := by
  unfold tick at h
  split at h
  · -- the queue gives up nothing
    simp only [dispatch] at h
    split at h
    · simp at h
    · split at h <;> simp at h
  · exact act_aborted h

variable (B) in
/-- A way to move that drops all running bodies when one gives up, and changes nothing else. -/
def Drops (move : Machine β ν ω → Progress (Machine β ν ω)) : Prop :=
  ∀ {m m' : Machine β ν ω} {cause : FaultCause}, move m = .halted (.aborted cause) m' →
    m.event B = .aborted ∧ m'.sched = { m.sched with running := [] }

variable {move : Machine β ν ω → Progress (Machine β ν ω)} {fuel : ℕ}

/-! ## Drains that end normally -/

theorem Faithful.idle_iterate (hf : Faithful B move) (h : iterate move fuel m = some (.ok (), m')) :
    move m' = .idle m' := by
  induction fuel, m, h using iterate_induction with
  | next _ _ _ _ _ ih => exact ih
  | idle fuel m hmove => rwa [← (hf.idle hmove).1] at hmove
  | halted _ _ _ _ hout => cases hout

/-- A drain that ends normally moves until the queue is empty and then reports. -/
theorem drain_eq_ok (h : drain B fuel m = some (.ok (), m')) :
    ∃ m₁, iterate (tick B) fuel m = some (.ok (), m₁) ∧ m₁.sched.running = [] ∧
      m₁.sched.ready = [] ∧ m'.sched = m₁.sched.report ∧
      drainEvents B fuel m = trace B (tick B) fuel m ++ [.drained] := by
  obtain ⟨m₁, hi, ⟨-, rfl⟩ | ⟨why, hout, -⟩⟩ := drain_eq_some h
  · obtain ⟨-, hr, hq⟩ := tick_idle (faithful_tick.idle_iterate hi)
    exact ⟨m₁, hi, hr, hq, rfl, by simp [drainEvents, h]⟩
  · cases hout

/-- A drain that is cut short leaves what its moves left. -/
theorem drain_eq_error {why : Halt} (h : drain B fuel m = some (.error why, m')) :
    iterate (tick B) fuel m = some (.error why, m') ∧
      drainEvents B fuel m = trace B (tick B) fuel m := by
  obtain ⟨m₁, hi, ⟨hout, -⟩ | ⟨_, -, rfl⟩⟩ := drain_eq_some h
  · cases hout
  · exact ⟨hi, by simp [drainEvents, h]⟩

/-! ## Calls that end -/

section Ends

variable {name : String} {body : β}

/-- What a spawn leaves is what the moves of its bodies leave. -/
theorem spawn_eq_some {out : Except Halt TaskId} (h : spawn B fuel name body m = some (out, m')) :
    ∃ ended, iterate (act B) fuel (start B m name body false) = some (ended, m') := by
  obtain ⟨ended, hi, -⟩ := exists_ended_of_spawn h
  exact ⟨ended, hi⟩

/-- A run that gives its main task to the host has drained the queue. -/
theorem run_eq_ok {id : TaskId} (h : run B fuel name body m = some (.ok id, m')) :
    drain B fuel (startMain B name body m) = some (.ok (), m') := by
  obtain ⟨ended, hd, hout⟩ := run_eq_some h
  cases ended with
  | ok u => exact hd
  | error why => cases hout

/-- A run that fails was cut short, or its main task waits for ever. -/
theorem run_eq_error {why : Halt} (h : run B fuel name body m = some (.error why, m')) :
    drain B fuel (startMain B name body m) = some (.error why, m') ∨
      ∃ pos task, why = .fault ⟨.stalled, pos, task⟩ := by
  obtain ⟨ended, hd, hout⟩ := run_eq_some h
  cases ended with
  | ok u =>
    simp only [Except.bind, conclude] at hout
    split at hout
    · cases hout
    · exact .inr ⟨none, _, Except.error.inj hout⟩
  | error why' =>
    obtain rfl := Except.error.inj hout
    exact .inl hd

end Ends

/-! ## Lasting properties -/

section Lasting

variable {I : List (Event ν) → Scheduler β ν → Prop} {es : List (Event ν)} {name : String}
  {body : β}

/-- A property holds and no body runs, as between the calls of a host. -/
structure Rests (I : List (Event ν) → Scheduler β ν → Prop) (es : List (Event ν))
    (s : Scheduler β ν) : Prop where
  holds : I es s
  mainOutermost : s.MainOutermost
  running_nil : s.running = []

theorem rests_iterate (hI : Scheduler.Lasting I) (hf : Faithful B move) (hd : Drops B move)
    {out : Except Halt Unit} (h : I es m.sched) (hm : m.sched.MainOutermost)
    (hi : iterate move fuel m = some (out, m')) :
    Rests I (es ++ trace B move fuel m) m'.sched := by
  induction fuel, m, hi using iterate_induction generalizing es with
  | next fuel m m₁ hmove _ ih =>
    obtain ⟨hstep, -⟩ := hf.next hmove
    have hrests := ih (hI.step h hstep) (hm.step hstep)
    rwa [List.append_assoc, List.singleton_append, ← trace_next hmove] at hrests
  | idle fuel m hmove =>
    obtain ⟨rfl, hr⟩ := hf.idle hmove
    rw [trace_idle hmove, List.append_nil]
    exact ⟨h, hm, hr⟩
  | halted fuel m why hmove =>
    rw [trace_halted hmove]
    cases why with
    | aborted =>
      obtain ⟨hevent, hsched⟩ := hd hmove
      rw [hevent, hsched]
      exact ⟨hI.dropped h, hm.dropped, rfl⟩
    | fault f =>
      obtain ⟨hstep, hr⟩ := hf.halted hmove hm
      exact ⟨hI.step h hstep, hm.step hstep, hr⟩

theorem Rests.step (hI : Scheduler.Lasting I) {s s' : Scheduler β ν} {e : Event ν}
    (h : Rests I es s) (hstep : s.Step e s') (hr : s'.running = []) : Rests I (es ++ [e]) s' :=
  ⟨hI.step h.holds hstep, h.mainOutermost.step hstep, hr⟩

theorem Rests.spawn (hI : Scheduler.Lasting I) {out : Except Halt TaskId} (h : Rests I es m.sched)
    (hout : spawn B fuel name body m = some (out, m')) :
    Rests I (es ++ spawnEvents B fuel name body m) m'.sched := by
  have hstart := start_step B name body h.running_nil
  obtain ⟨ended, hi⟩ := spawn_eq_some hout
  have := rests_iterate hI faithful_act act_aborted (hI.step h.holds hstart)
    (h.mainOutermost.step hstart) hi
  rwa [List.append_assoc] at this

theorem rests_drain (hI : Scheduler.Lasting I) {out : Except Halt Unit} (h : I es m.sched)
    (hm : m.sched.MainOutermost) (hout : drain B fuel m = some (out, m')) :
    Rests I (es ++ drainEvents B fuel m) m'.sched := by
  cases out with
  | ok u =>
    obtain ⟨m₁, hi, hr, hq, hsched, hevents⟩ := drain_eq_ok hout
    rw [hevents, hsched, ← List.append_assoc]
    exact (rests_iterate hI faithful_tick tick_aborted h hm hi).step hI (.drain hr hq) hr
  | error why =>
    obtain ⟨hi, hevents⟩ := drain_eq_error hout
    rw [hevents]
    exact rests_iterate hI faithful_tick tick_aborted h hm hi

theorem Rests.run (hI : Scheduler.Lasting I) {out : Except Halt TaskId} (h : Rests I es m.sched)
    (hout : run B fuel name body m = some (out, m')) :
    Rests I (es ++ runEvents B fuel name body m) m'.sched := by
  have hstart := startMain_step B name body h.running_nil
  have hmain : (startMain B name body m).sched.main = some m.sched.nextId := rfl
  obtain ⟨ended, hd, hended⟩ := run_eq_some hout
  have hrests := rests_drain hI (hI.step h.holds hstart) (h.mainOutermost.step hstart) hd
  rw [List.append_assoc] at hrests
  unfold runEvents
  rw [hout]
  cases ended with
  | error why =>
    obtain rfl : out = .error why := hended
    simpa using hrests
  | ok u =>
    obtain rfl : out = conclude m.sched.nextId m' := hended
    obtain ⟨-, -, hmain', -⟩ := drain_steps (h.mainOutermost.step hstart) hd (by simp)
    cases hs : (m'.sched.stateOf m.sched.nextId).isSettled with
    | true =>
      have := hrests.step hI (.return hrests.running_nil (hmain'.trans hmain) hs)
        hrests.running_nil
      simpa [conclude, hs] using this
    | false => simpa [conclude, hs] using hrests

variable {maxSteps : ℕ} {world : ω}

/-- A property that no move takes away holds after all calls on a fresh machine. -/
theorem Uses.lasting (hI : Scheduler.Lasting I) (h₀ : I [] (.fresh maxSteps))
    (h : Uses B ⟨.fresh maxSteps, world⟩ es m) : Rests I es m.sched := by
  induction h with
  | none => exact ⟨h₀, Scheduler.mainOutermost_fresh maxSteps, rfl⟩
  | spawn _ hout ih => exact ih.spawn hI hout
  | run _ hout ih => exact ih.run hI hout
  | drain _ hout ih => exact rests_drain hI ih.holds ih.mainOutermost hout

end Lasting

end Machine

end CoScript
