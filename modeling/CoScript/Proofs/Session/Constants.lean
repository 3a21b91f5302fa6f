import CoScript.Proofs.Eval.Constants
import CoScript.Proofs.Session.Reports

/-!
# Constants in a session

A constant keeps its value as long as a session lasts, whatever programs run and whatever functions
are called, if no step on the way overwrites it.

Results:
* `Machine.KeepsConstants`: a way to move that leaves constants alone unless it overwrites them.
* `Machine.run_isConst`: a constant after a run of all tasks.
* `Session.run_isConst`, `Session.call_isConst`, `Session.pass_isConst`: a constant after what a
  host does.
-/

namespace CoScript

variable {r : Ref .scope} {name : String} {v : Value}

namespace Machine

variable {m m' : Machine Thread Value World}

/-! ## Moves of a machine -/

/-- A machine whose innermost running thread overwrites a name in a scope in its next step. -/
def Overwrites (m : Machine Thread Value World) (r : Ref .scope) (name : String) : Prop :=
  ∃ p outer, m.sched.running = p :: outer ∧ p.body.Overwrites m.world r name

/-- What an action does to tasks leaves the heap alone. -/
theorem perform_heap {id : TaskId} {outer : List (Parked Thread)} {action : Action Thread Value}
    (h : perform script m id outer action = .next m' ∨
      ∃ why, perform script m id outer action = .halted why m') :
    m'.world.heap = m.world.heap := by
  cases action with
  | fail f =>
    simp only [perform] at h
    split at h
    · obtain ⟨⟨⟩⟩ | ⟨_, ⟨⟩⟩ := h
      rfl
    · obtain ⟨⟨⟩⟩ | ⟨_, ⟨⟩⟩ := h
      rfl
  | _ =>
    obtain ⟨⟨⟩⟩ | ⟨_, ⟨⟩⟩ := h
    rfl

/-- A way to move that leaves constants alone unless it overwrites them. -/
def KeepsConstants (move : Machine Thread Value World → Progress (Machine Thread Value World)) :
    Prop :=
  ∀ {m m' : Machine Thread Value World} {r : Ref .scope} {name : String} {v : Value},
    (move m = .next m' ∨ ∃ why, move m = .halted why m') →
    m.world.heap.scopes.IsConst r name v → ¬ m.Overwrites r name →
    m'.world.heap.scopes.IsConst r name v

theorem keepsConstants_act : KeepsConstants (act script) := by
  intro m m' r name v h hconst hno
  obtain ⟨sched, world⟩ := m
  cases hr : sched.running with
  | nil => simp [act, hr] at h
  | cons p outer =>
    obtain ⟨id, t⟩ := p
    have ht : ¬ t.Overwrites world r name := fun ht => hno ⟨⟨id, t⟩, outer, hr, ht⟩
    simp only [act, hr] at h
    rw [perform_heap h]
    have hstep := t.step_isConst (.ofTasks sched.tasks) hconst ht
    change (t.act world sched.tasks).2.heap.scopes.IsConst r name v
    unfold Thread.act
    generalize (t.step (.ofTasks sched.tasks)).run world = out at hstep
    obtain ⟨result, world'⟩ := out
    cases result with
    | ok move => exact hstep
    | error why => cases why <;> exact hstep

theorem keepsConstants_tick : KeepsConstants (tick script) := by
  intro m m' r name v h hconst hno
  unfold tick at h
  split at h
  · -- a body that gets its turn only starts to run
    unfold dispatch at h
    split at h
    · simp at h
    · split at h
      · obtain ⟨⟨⟩⟩ | ⟨_, ⟨⟩⟩ := h
        exact hconst
      · obtain ⟨⟨⟩⟩ | ⟨_, ⟨⟩⟩ := h
        exact hconst
  · exact keepsConstants_act h hconst hno

variable {move : Machine Thread Value World → Progress (Machine Thread Value World)} {fuel : ℕ}

/-- A constant is left alone by any number of moves none of which overwrites it. -/
theorem KeepsConstants.after (hm : KeepsConstants move) (h : m.world.heap.scopes.IsConst r name v)
    (hno : ∀ n, ¬ (Machine.after move n m).Overwrites r name) (n : ℕ) :
    (Machine.after move n m).world.heap.scopes.IsConst r name v := by
  induction n generalizing m with
  | zero => exact h
  | succ n ih =>
    unfold Machine.after
    cases hmove : move m with
    | next m₁ =>
      refine ih (hm (.inl hmove) h (hno 0)) fun k => ?_
      have := hno (k + 1)
      simpa only [Machine.after, hmove] using this
    | idle m₁ => exact h
    | halted why m₁ => exact h

/-- A constant is left alone by all moves of a run if none of them overwrites it. -/
theorem KeepsConstants.iterate (hm : KeepsConstants move) (hf : Faithful script move)
    (h : m.world.heap.scopes.IsConst r name v)
    (hno : ∀ n, ¬ (Machine.after move n m).Overwrites r name) {out : Except Halt Unit}
    (hi : Machine.iterate move fuel m = some (out, m')) :
    m'.world.heap.scopes.IsConst r name v := by
  induction fuel, m, hi using iterate_induction with
  | next fuel m m₁ hmove _ ih =>
    refine ih (hm (.inl hmove) h (hno 0)) fun k => ?_
    have := hno (k + 1)
    simpa only [Machine.after, hmove] using this
  | idle fuel m hmove =>
    obtain ⟨rfl, -⟩ := hf.idle hmove
    exact h
  | halted fuel m why hmove => exact hm (.inr ⟨why, hmove⟩) h (hno 0)

/-- Draining the queue leaves a constant alone if no move overwrites it. -/
theorem drain_isConst (h : m.world.heap.scopes.IsConst r name v)
    (hno : ∀ n, ¬ (after (tick script) n m).Overwrites r name) {out : Except Halt Unit}
    (hd : drain script fuel m = some (out, m')) : m'.world.heap.scopes.IsConst r name v := by
  obtain ⟨m₁, hi, hend⟩ := drain_eq_some hd
  have hconst := keepsConstants_tick.iterate faithful_tick h hno hi
  obtain ⟨-, rfl⟩ | ⟨why, -, rfl⟩ := hend <;> exact hconst

/-- Running a main task and all others leaves a constant alone if no move overwrites it. -/
theorem run_isConst {task : String} {t : Thread} (h : m.world.heap.scopes.IsConst r name v)
    (hno : ∀ n, ¬ (after (tick script) n (startMain script task t m)).Overwrites r name)
    {out : Except Halt TaskId} (hr : run script fuel task t m = some (out, m')) :
    m'.world.heap.scopes.IsConst r name v := by
  have hstart : (startMain script task t m).world.heap.scopes.IsConst r name v := h
  obtain ⟨ended, hd, -⟩ := run_eq_some hr
  exact drain_isConst hstart hno hd

end Machine

namespace Session

variable {s s' : Session} {fuel : ℕ}

/-! ## Operations of a host -/

/-- A constant after the run of a program. -/
theorem run_isConst {program : Program} {out : Except Fault RunResult}
    (h : s.world.heap.scopes.IsConst r name v)
    (hno : ∀ n, ¬ (Machine.after (Machine.tick script) n (Machine.startMain script "main"
      ⟨.program (importsOf program.statements) program.statements, [], 0⟩ s.machine)).Overwrites
        r name)
    (hr : (run fuel program).run s = some (out, s')) : s'.world.heap.scopes.IsConst r name v := by
  obtain ⟨ended, m, hm, -, hheap, -⟩ := run_reports hr
  rw [hheap]
  exact Machine.run_isConst h hno hm

/-- A constant after a call from outside. -/
theorem call_isConst {function : String} {callee : Value} {args : List Value}
    {out : Except Fault Value} (h : s.world.heap.scopes.IsConst r name v)
    (hl : s.world.heap.scopes.lookup s.world.globals function = .ok callee)
    (hno : ∀ n, ¬ (Machine.after (Machine.tick script) n (Machine.startMain script function
      ⟨.invoke callee args outside, [], 0⟩ s.clearUnhandled.machine)).Overwrites r name)
    (hc : (call fuel function args).run s = some (out, s')) :
    s'.world.heap.scopes.IsConst r name v := by
  obtain ⟨cause, -, rfl, -⟩ | ⟨callee', hl', ended, m, hm, -, hheap, -⟩ := call_reports hc
  · exact h
  · rw [hl] at hl'
    cases hl'
    rw [hheap]
    exact Machine.run_isConst (m := s.clearUnhandled.machine) h hno hm

/-- A constant after a value is passed. -/
theorem pass_isConst {value : HostValue} {x : Value} {heap : Heap}
    (h : s.world.heap.scopes.IsConst r name v)
    (hv : value.toValue.run s.world.heap = .ok (x, heap)) : heap.scopes.IsConst r name v :=
  leaves_toValue (Scopes.sparing_isConst r name v).stable.toInert s.world value _ _ _ hv h

end Session

end CoScript
