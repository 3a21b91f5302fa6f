import CoScript.Proofs.Task.Uses

/-!
# The limit of turns

The limit is one for all turns of a machine, and bodies do not see it. So what a call does under one
budget it does under each other one that has as many turns left as the call takes, and under those
that have fewer left it ends at the limit.

Results:
* `Machine.withBudget`: a machine that has used other turns and has another limit.
* `Spends`: how many turns a computation takes, whatever its budget is.
* `Machine.tick_turn`: a move takes no turn or one.
* `Machine.drain_spends`, `Machine.run_spends`: the turns of calls.
-/

namespace CoScript

/-- A progress whose state is changed by a function. -/
def Progress.map {σ : Type} (f : σ → σ) : Progress σ → Progress σ
  | next s => .next (f s)
  | idle s => .idle (f s)
  | halted why s => .halted why (f s)

/-- No turn is left, of as many as the limit allows. -/
def Fault.limitReached (limit : ℕ) : Fault :=
  .nowhere (.stepLimit limit)

/-! ## Budgets -/

namespace Scheduler

variable {β ν : Type} (s : Scheduler β ν) (used limit : ℕ)

/-- A scheduler that has given other turns and has another limit. -/
def withBudget : Scheduler β ν :=
  { s with steps := used, maxSteps := limit }

theorem suspend_withBudget [Inhabited ν] (p : Parked β) (a : Awaited ν) :
    (s.withBudget used limit).suspend p a =
      ((s.suspend p a).1.withBudget used limit, (s.suspend p a).2) := by
  cases a with
  | value v => rfl
  | task id =>
    have htask : (s.withBudget used limit).tasks[id.index]? = s.tasks[id.index]? := rfl
    simp only [suspend, htask]
    cases s.tasks[id.index]? with
    | none => rfl
    | some t =>
      by_cases hs : t.state.isSettled = true
      · simp only [if_pos hs]
        rfl
      · simp only [if_neg hs]
        rfl

theorem settle_withBudget (id : TaskId) (state : TaskState ν) :
    (s.withBudget used limit).settle id state = (s.settle id state).withBudget used limit := by
  have htask : (s.withBudget used limit).tasks[id.index]? = s.tasks[id.index]? := rfl
  simp only [settle, htask]
  cases s.tasks[id.index]? <;> rfl

end Scheduler

namespace Machine

variable {β ν ω : Type}

/-- A machine that has given other turns and has another limit. -/
def withBudget (m : Machine β ν ω) (used limit : ℕ) : Machine β ν ω :=
  { m with sched := m.sched.withBudget used limit }

variable (B : Behaviour β ν ω) (m : Machine β ν ω) (used limit : ℕ)

theorem settle_withBudget (id : TaskId) (state : TaskState ν) :
    settle B (m.withBudget used limit) id state = (settle B m id state).withBudget used limit := by
  have hsched := m.sched.settle_withBudget used limit id state
  exact congrArg (Machine.mk · (settle B m id state).world) hsched

theorem fail_withBudget (id : TaskId) (f : Fault) :
    fail B (m.withBudget used limit) id f = (fail B m id f).withBudget used limit :=
  settle_withBudget B { m with world := B.note (.failed (m.sched.labelOf id) _) m.world } used limit
    id (.failed (f.inTask (m.sched.labelOf id)))

variable [Inhabited ν]

theorem suspend_withBudget (p : Parked β) (a : Awaited ν) :
    suspend B (m.withBudget used limit) p a = (suspend B m p a).withBudget used limit := by
  have h := Scheduler.suspend_withBudget m.sched used limit p a
  simp only [suspend, withBudget] at h ⊢
  rw [h]

theorem perform_withBudget (id : TaskId) (outer : List (Parked β)) (action : Action β ν) :
    perform B (m.withBudget used limit) id outer action =
      (perform B m id outer action).map (·.withBudget used limit) := by
  cases action with
  | await what body =>
    exact congrArg Progress.next (suspend_withBudget B (m.withRunning outer) used limit _ what)
  | finish v =>
    exact congrArg Progress.next (settle_withBudget B (m.withRunning outer) used limit ..)
  | throw v pos =>
    exact congrArg Progress.next (settle_withBudget B (m.withRunning outer) used limit ..)
  | fail f =>
    by_cases hmain : m.sched.main = some id
    · have hmain' : (m.withBudget used limit).sched.main = some id := hmain
      simp only [perform, if_pos hmain, if_pos hmain']
      rfl
    · have hmain' : (m.withBudget used limit).sched.main ≠ some id := hmain
      simp only [perform, if_neg hmain, if_neg hmain']
      exact congrArg Progress.next (fail_withBudget B (m.withRunning outer) used limit id f)
  | _ => rfl

/-- A body acts as it does under any other budget. -/
theorem act_withBudget :
    act B (m.withBudget used limit) = (act B m).map (·.withBudget used limit) := by
  obtain ⟨sched, world⟩ := m
  cases hr : sched.running with
  | nil =>
    have hr' : (sched.withBudget used limit).running = [] := hr
    simp only [act, withBudget, hr, hr']
    rfl
  | cons p outer =>
    have hr' : (sched.withBudget used limit).running = p :: outer := hr
    simp only [act, withBudget, hr, hr']
    exact perform_withBudget B ⟨sched, _⟩ used limit p.id outer _

/-- An act leaves the budget as it is. -/
theorem act_budget :
    act B m = (act B m).map (·.withBudget m.sched.steps m.sched.maxSteps) :=
  act_withBudget B m m.sched.steps m.sched.maxSteps

/-! ## Moves -/

/-- The first body of the queue gets its turn. -/
def turn (r : Ready β ν) (rest : List (Ready β ν)) : Machine β ν ω :=
  { m with sched := { m.sched with
      ready := rest
      steps := m.sched.steps + 1
      running := [⟨r.parked.id, B.resume r.parked.body (m.sched.delivery r.awaited)⟩] } }

section Moves

variable {B m} {m' : Machine β ν ω}

theorem tick_of_running (hr : m.sched.running ≠ []) : tick B m = act B m := by
  rw [tick, if_neg (by simpa using hr)]

theorem tick_of_ready {r : Ready β ν} {rest : List (Ready β ν)} (hr : m.sched.running = [])
    (hq : m.sched.ready = r :: rest) : tick B m =
      if m.sched.maxSteps ≤ m.sched.steps then
        .halted (.fault (.limitReached m.sched.maxSteps)) m
      else .next (m.turn B r rest) := by
  rw [tick, if_pos (by simpa using hr)]
  simp only [dispatch, Scheduler.next?, hq]
  rfl

theorem tick_of_rest (hr : m.sched.running = []) (hq : m.sched.ready = []) :
    tick B m = .idle m := by
  rw [tick, if_pos (by simpa using hr)]
  simp only [dispatch, Scheduler.next?, hq]

/-- A move that goes on is an act of a running body, or a turn while there is one left. -/
theorem tick_next_cases (h : tick B m = .next m') :
    m.sched.running ≠ [] ∧ act B m = .next m' ∨
      ∃ r rest, m.sched.running = [] ∧ m.sched.ready = r :: rest ∧
        m.sched.steps < m.sched.maxSteps ∧ m' = m.turn B r rest := by
  by_cases hr : m.sched.running = []
  · cases hq : m.sched.ready with
    | nil =>
      rw [tick_of_rest hr hq] at h
      cases h
    | cons r rest =>
      rw [tick_of_ready hr hq] at h
      split at h
      · cases h
      · rename_i hleft
        exact .inr ⟨r, rest, hr, rfl, Nat.lt_of_not_le hleft, (Progress.next.inj h).symm⟩
  · exact .inl ⟨hr, by rwa [tick_of_running hr] at h⟩

/-- A move that ends a run is an act of a running body, or would be a turn beyond the limit. -/
theorem tick_halted_cases {why : Halt} (h : tick B m = .halted why m') :
    m.sched.running ≠ [] ∧ act B m = .halted why m' ∨
      ∃ r rest, m.sched.running = [] ∧ m.sched.ready = r :: rest ∧
        m.sched.maxSteps ≤ m.sched.steps ∧ why = .fault (.limitReached m.sched.maxSteps) ∧
          m' = m := by
  by_cases hr : m.sched.running = []
  · cases hq : m.sched.ready with
    | nil =>
      rw [tick_of_rest hr hq] at h
      cases h
    | cons r rest =>
      rw [tick_of_ready hr hq] at h
      split at h
      · rename_i hl
        obtain ⟨rfl, rfl⟩ := Progress.halted.inj h
        exact .inr ⟨r, rest, hr, rfl, hl, rfl, rfl⟩
      · cases h
  · exact .inl ⟨hr, by rwa [tick_of_running hr] at h⟩

theorem act_next_withBudget (h : act B m = .next m') (used limit : ℕ) :
    act B (m.withBudget used limit) = .next (m'.withBudget used limit) := by
  rw [act_withBudget, h]
  rfl

theorem act_next_budget (h : act B m = .next m') :
    m'.sched.steps = m.sched.steps ∧ m'.sched.maxSteps = m.sched.maxSteps := by
  have hself := act_budget B m
  rw [h] at hself
  have hm' := Progress.next.inj hself
  exact ⟨congrArg (·.sched.steps) hm', congrArg (·.sched.maxSteps) hm'⟩

/-- A move that goes on takes no turn, or one if the budget has one left. -/
theorem tick_turn (h : tick B m = .next m') :
    m'.sched.maxSteps = m.sched.maxSteps ∧
    (m'.sched.steps = m.sched.steps ∧
        (∀ used limit, tick B (m.withBudget used limit) = .next (m'.withBudget used limit)) ∨
      m'.sched.steps = m.sched.steps + 1 ∧ m.sched.ready ≠ [] ∧
        ∀ used limit, tick B (m.withBudget used limit) =
          if limit ≤ used then .halted (.fault (.limitReached limit)) (m.withBudget used limit)
          else .next (m'.withBudget (used + 1) limit)) := by
  obtain ⟨hr, hact⟩ | ⟨r, rest, hr, hq, -, rfl⟩ := tick_next_cases h
  · obtain ⟨hsteps, hmax⟩ := act_next_budget hact
    refine ⟨hmax, .inl ⟨hsteps, fun used limit => ?_⟩⟩
    rw [tick_of_running (m := m.withBudget used limit) hr, act_next_withBudget hact]
  · exact ⟨rfl, .inr ⟨rfl, by simp [hq], fun _ _ => tick_of_ready hr hq⟩⟩

/-- A move that ends a run, but not at the limit, takes no turn. -/
theorem tick_halt {why : Halt} (h : tick B m = .halted why m')
    (hwhy : why ≠ .fault (.limitReached m.sched.maxSteps)) :
    m'.sched.maxSteps = m.sched.maxSteps ∧ m'.sched.steps = m.sched.steps ∧
      ∀ used limit, tick B (m.withBudget used limit) = .halted why (m'.withBudget used limit) := by
  obtain ⟨hr, hact⟩ | ⟨r, rest, -, -, -, hlimit, -⟩ := tick_halted_cases h
  · have hself := act_budget B m
    rw [hact] at hself
    have hm' := (Progress.halted.inj hself).2
    refine ⟨congrArg (·.sched.maxSteps) hm', congrArg (·.sched.steps) hm', fun used limit => ?_⟩
    rw [tick_of_running (m := m.withBudget used limit) hr, act_withBudget, hact]
    rfl
  · exact absurd hlimit hwhy

end Moves

end Machine

/-! ## Calls -/

/-- A call that ends in this way takes so many turns: under each budget that has as many left it
    ends in the same way, and under one that has fewer left it ends at the limit, while bodies could
    still go on. -/
structure Spends {σ β ν ε α : Type} (sched : σ → Scheduler β ν) (withBudget : σ → ℕ → ℕ → σ)
    (atLimit : ℕ → ε) (call : σ → Option (Except ε α × σ)) (s : σ) (turns : ℕ) (out : Except ε α)
    (s' : σ) : Prop where
  steps_eq : (sched s').steps = (sched s).steps + turns
  maxSteps_eq : (sched s').maxSteps = (sched s).maxSteps
  within : ∀ used limit, used + turns ≤ limit →
    call (withBudget s used limit) = some (out, withBudget s' (used + turns) limit)
  beyond : ∀ used limit, used ≤ limit → limit < used + turns → ∃ s'',
    call (withBudget s used limit) = some (.error (atLimit limit), s'') ∧
      (sched s'').steps = limit ∧ (sched s'').ready ≠ []

namespace Machine

variable {β ν ω : Type} [Inhabited ν] {B : Behaviour β ν ω} {m m' : Machine β ν ω} {fuel : ℕ}

/-- How many turns a call on a machine takes. -/
abbrev Takes {α : Type} (call : Machine β ν ω → Option (Except Halt α × Machine β ν ω))
    (m : Machine β ν ω) (turns : ℕ) (out : Except Halt α) (m' : Machine β ν ω) : Prop :=
  Spends Machine.sched withBudget (fun limit => .fault (.limitReached limit)) call m turns out m'

/-- Moves that do not end at the limit take a number of turns that their budget does not change. -/
theorem iterate_spends {out : Except Halt Unit} (h : iterate (tick B) fuel m = some (out, m'))
    (hout : out ≠ .error (.fault (.limitReached m.sched.maxSteps))) :
    ∃ turns, Takes (iterate (tick B) fuel) m turns out m' := by
  induction fuel, m, h using iterate_induction with
  | next fuel m m₁ hmove _ ih =>
    obtain ⟨hmax, hturn⟩ := tick_turn hmove
    obtain ⟨turns, hturns⟩ := ih (hmax ▸ hout)
    obtain ⟨hsteps, hnext⟩ | ⟨hsteps, hq, hnext⟩ := hturn
    · refine ⟨turns, hturns.steps_eq.trans (by rw [hsteps]), hturns.maxSteps_eq.trans hmax,
        fun used limit hle => ?_, fun used limit hle hlt => ?_⟩
      · simp only [iterate, hnext]
        exact hturns.within used limit hle
      · simp only [iterate, hnext]
        exact hturns.beyond used limit hle hlt
    · refine ⟨turns + 1, hturns.steps_eq.trans (by omega), hturns.maxSteps_eq.trans hmax,
        fun used limit hle => ?_, fun used limit hle hlt => ?_⟩
      · have hleft : ¬ limit ≤ used := by omega
        have hadd : used + (turns + 1) = used + 1 + turns := by omega
        simp only [iterate, hnext, if_neg hleft, hadd]
        exact hturns.within (used + 1) limit (by omega)
      · by_cases hused : limit ≤ used
        · simp only [iterate, hnext, if_pos hused]
          exact ⟨_, rfl, Nat.le_antisymm hle hused, hq⟩
        · simp only [iterate, hnext, if_neg hused]
          exact hturns.beyond (used + 1) limit (by omega) (by omega)
  | idle fuel m hmove hend =>
    subst hend
    obtain ⟨rfl, hr, hq⟩ := tick_idle hmove
    refine ⟨0, rfl, rfl, fun used limit _ => ?_, fun used limit _ _ => by omega⟩
    simp only [iterate, tick_of_rest (m := m'.withBudget used limit) hr hq, Nat.add_zero]
  | halted fuel m why hmove hend =>
    subst hend
    obtain ⟨hmax, hsteps, hhalt⟩ := tick_halt hmove fun heq => hout (by rw [heq])
    refine ⟨0, hsteps, hmax, fun used limit _ => ?_, fun used limit _ _ => by omega⟩
    simp only [iterate, hhalt, Nat.add_zero]

theorem drain_spends {out : Except Halt Unit} (h : drain B fuel m = some (out, m'))
    (hout : out ≠ .error (.fault (.limitReached m.sched.maxSteps))) :
    ∃ turns, Takes (drain B fuel) m turns out m' := by
  cases out with
  | ok u =>
    obtain ⟨m₁, hi, -⟩ := drain_eq_ok h
    obtain rfl : m' = { m₁ with sched := m₁.sched.report } := by
      simpa [drain, hi, eq_comm] using h
    obtain ⟨turns, hturns⟩ := iterate_spends hi (by simp)
    refine ⟨turns, hturns.steps_eq, hturns.maxSteps_eq, fun used limit hle => ?_,
      fun used limit hle hlt => ?_⟩
    · simp only [drain, hturns.within used limit hle]
      rfl
    · obtain ⟨m'', hi'', hend⟩ := hturns.beyond used limit hle hlt
      exact ⟨m'', by simp only [drain, hi''], hend⟩
  | error why =>
    obtain ⟨turns, hturns⟩ := iterate_spends (drain_eq_error h).1 hout
    refine ⟨turns, hturns.steps_eq, hturns.maxSteps_eq, fun used limit hle => ?_,
      fun used limit hle hlt => ?_⟩
    · simp only [drain, hturns.within used limit hle]
    · obtain ⟨m'', hi'', hend⟩ := hturns.beyond used limit hle hlt
      exact ⟨m'', by simp only [drain, hi''], hend⟩

theorem run_spends {name : String} {body : β} {out : Except Halt TaskId}
    (h : run B fuel name body m = some (out, m'))
    (hout : out ≠ .error (.fault (.limitReached m.sched.maxSteps))) :
    ∃ turns, Takes (run B fuel name body) m turns out m' := by
  obtain ⟨ended, hd, hended⟩ := run_eq_some h
  have hne : ended ≠ .error (.fault (.limitReached m.sched.maxSteps)) := by
    rintro rfl
    exact hout hended
  obtain ⟨turns, hturns⟩ := drain_spends hd hne
  refine ⟨turns, hturns.steps_eq, hturns.maxSteps_eq, fun used limit hle => ?_,
    fun used limit hle hlt => ?_⟩
  · have hd' : drain B fuel (startMain B name body (m.withBudget used limit)) = _ :=
      hturns.within used limit hle
    cases ended with
    | ok u =>
      obtain rfl : out = conclude m.sched.nextId m' := hended
      simp only [run, hd']
      rfl
    | error why =>
      obtain rfl : out = .error why := hended
      simp only [run, hd']
  · obtain ⟨m'', hd'', hend⟩ := hturns.beyond used limit hle hlt
    have hd' : drain B fuel (startMain B name body (m.withBudget used limit)) = _ := hd''
    exact ⟨m'', by simp only [run, hd'], hend⟩

end Machine

end CoScript
