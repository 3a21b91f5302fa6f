import CoScript.Proofs.Try.Stack

/-!
# Runs of a part of a program

A part of a program that starts on some stack has come to its end once the stack is the same again
and the thread hands on a value or a jump. What lies between is a run of the part. The thread may
wait at any point of a run, or start a task; it goes on in whatever world the other tasks leave.

A part that starts further up is run inside: up to its end, everything happens above the frame that
waits for it.

Results:
* `Moment.Step`: from one moment of a thread to its next.
* `Runs`: the moments that a thread goes through until a part of a program has come to its end.
* `runs_iff_leads`: a run inside another comes first, and the rest depends on how it is left.
-/

namespace CoScript

/-- A thread that is about to act, and the world that it finds. -/
structure Moment where
  world : World
  thread : Thread

namespace Moment

/-- From one moment of a thread to its next. A thread that waits gets something and goes on in
    whatever world there is by then, and so does one that starts a task. -/
inductive Step (m : Moment) : Moment → Prop
  | proceed {tasks : Array (Task Thread Value)} {t : Thread} {w : World}
    (h : m.thread.act m.world tasks = (.proceed t, w)) : Step m ⟨w, t⟩
  | await {tasks : Array (Task Thread Value)} {what : Awaited Value} {t : Thread} {w : World}
    (h : m.thread.act m.world tasks = (.await what t, w)) (got : Delivery Value) (later : World) :
    Step m ⟨later, t.resume got⟩
  | spawn {tasks : Array (Task Thread Value)} {name : String} {child : Thread}
    {parent : TaskId → Thread} {w : World}
    (h : m.thread.act m.world tasks = (.spawn name child parent, w)) (id : TaskId)
    (later : World) : Step m ⟨later, parent id⟩

/-- A thread is stopped by a fault, or gives up. -/
inductive Stops (m : Moment) : Halt → World → Prop
  | fault {tasks : Array (Task Thread Value)} {f : Fault} {w : World}
    (h : m.thread.act m.world tasks = (.fail f, w)) : Stops m (.fault f) w
  | abort {tasks : Array (Task Thread Value)} {cause : FaultCause} {w : World}
    (h : m.thread.act m.world tasks = (.abort cause, w)) : Stops m (.aborted cause) w

/-- A part of a program that started on a stack has come to its end, or is left by a jump. -/
inductive Ended (below : List Frame) : Moment → Option Abrupt → Prop
  | normal (w : World) (v : Value) (base : Nat) : Ended below ⟨w, ⟨.ret v, below, base⟩⟩ none
  | abrupt (w : World) (how : Abrupt) (base : Nat) :
    Ended below ⟨w, ⟨.leave how, below, base⟩⟩ (some how)

/-- A part of a program is still in progress. -/
def Open (below : List Frame) (m : Moment) : Prop :=
  ∀ how, ¬ m.Ended below how

end Moment

/-- What a run comes to: a moment at its end, or nothing more of its thread. -/
inductive RunEnd where
  | at (m : Moment)
  | stopped (why : Halt) (world : World)

/-- From a moment on, a thread goes through moments until a part of a program that started on a
    stack has come to its end, or until the thread is stopped. -/
inductive Runs (below : List Frame) : Moment → List Moment → RunEnd → Prop
  | ended {m : Moment} {how : Option Abrupt} (h : m.Ended below how) : Runs below m [] (.at m)
  | stopped {m : Moment} {why : Halt} {w : World} (hm : m.Open below) (h : m.Stops why w) :
    Runs below m [m] (.stopped why w)
  | step {m m' : Moment} {ms : List Moment} {e : RunEnd} (hm : m.Open below) (h : m.Step m')
    (hr : Runs below m' ms e) : Runs below m (m :: ms) e

/-- A run after one more moment. -/
inductive After (m : Moment) (rest : List Moment → RunEnd → Prop) : List Moment → RunEnd → Prop
  | intro {ms : List Moment} {e : RunEnd} (h : rest ms e) : After m rest (m :: ms) e

/-- A run that is over at once. -/
inductive Over (m : Moment) : List Moment → RunEnd → Prop
  | intro : Over m [] (.at m)

/-- A run of a part of a program. Unless the thread is stopped, what follows depends on how the part
    is left. -/
inductive Leads (inner : List Frame) (m : Moment)
    (next : Option Abrupt → Moment → List Moment → RunEnd → Prop) : List Moment → RunEnd → Prop
  | stopped {ms : List Moment} {why : Halt} {w : World}
    (h : Runs inner m ms (.stopped why w)) : Leads inner m next ms (.stopped why w)
  | ended {ms ms' : List Moment} {m' : Moment} {how : Option Abrupt} {e : RunEnd}
    (h : Runs inner m ms (.at m')) (hm : m'.Ended inner how) (hn : next how m' ms' e) :
    Leads inner m next (ms ++ ms') e

variable {below inner : List Frame} {m m' : Moment} {ms : List Moment} {e : RunEnd}

theorem After.congr {rest rest' : List Moment → RunEnd → Prop}
    (h : ∀ ms e, rest ms e ↔ rest' ms e) : After m rest ms e ↔ After m rest' ms e := by
  constructor
  · rintro ⟨hr⟩
    exact ⟨(h _ _).mp hr⟩
  · rintro ⟨hr⟩
    exact ⟨(h _ _).mpr hr⟩

theorem Leads.mono {next next' : Option Abrupt → Moment → List Moment → RunEnd → Prop}
    (h : ∀ how m' ms e, m'.Ended inner how → next how m' ms e → next' how m' ms e)
    (hl : Leads inner m next ms e) : Leads inner m next' ms e := by
  cases hl with
  | stopped hr => exact .stopped hr
  | ended hr hm hn => exact .ended hr hm (h _ _ _ _ hm hn)

theorem Leads.congr {next next' : Option Abrupt → Moment → List Moment → RunEnd → Prop}
    (h : ∀ how m' ms e, m'.Ended inner how → (next how m' ms e ↔ next' how m' ms e)) :
    Leads inner m next ms e ↔ Leads inner m next' ms e :=
  ⟨.mono fun how m' ms e hm => (h how m' ms e hm).mp,
    .mono fun how m' ms e hm => (h how m' ms e hm).mpr⟩

/-! ## Ends -/

namespace Moment

theorem Ended.stack {how : Option Abrupt} (h : m.Ended below how) : m.thread.stack = below := by
  cases h <;> rfl

/-- Above a longer stack, nothing that started below is at its end. -/
theorem open_of_above (hb : below <:+ inner) (hne : inner ≠ below) (hm : inner <:+ m.thread.stack) :
    m.Open below := by
  intro how h
  rw [h.stack] at hm
  exact hne (hm.eq_of_length_le hb.length_le)

theorem open_of_control (h : m.thread.control.isOver = false) : m.Open below := by
  rintro how (⟨⟩ | ⟨⟩) <;> simp [Control.isOver] at h

/-- A thread that hands something on where a part started has come to the end of the part. -/
theorem ended_of_control (h : m.thread.control.isOver = true) (hs : m.thread.stack = below) :
    ∃ how, m.Ended below how := by
  obtain ⟨w, control, stack, base⟩ := m
  subst hs
  cases control with
  | ret v => exact ⟨none, .normal w v base⟩
  | leave how => exact ⟨some how, .abrupt w how base⟩
  | _ => simp [Control.isOver] at h

end Moment

/-! ## Steps -/

/-- The action that the outcome of a step is. -/
def Thread.outcome (t : Thread) : Except Halt Move → Action Thread Value
  | .ok move => t.action move
  | .error (.fault f) => .fail f
  | .error (.aborted cause) => .abort cause

theorem Thread.act_eq (t : Thread) (w : World) (tasks : Array (Task Thread Value)) :
    t.act w tasks = (t.outcome ((t.step (.ofTasks tasks)).run w).1,
      ((t.step (.ofTasks tasks)).run w).2) := by
  unfold Thread.act
  generalize (t.step (.ofTasks tasks)).run w = out
  obtain ⟨(f | cause) | move, w'⟩ := out <;> rfl

/-- An action after which a stack is still below, if the thread goes on; it does not end. -/
def Action.Above (below : List Frame) : Action Thread Value → Prop
  | .proceed t | .await _ t => below <:+ t.stack
  | .spawn _ _ parent => ∀ id, below <:+ (parent id).stack
  | .finish _ | .throw .. => False
  | .fail _ | .abort _ => True

/-- What a step stays above, its action does too. -/
theorem Thread.above_act {t : Thread} (h : ∀ ps, (t.step ps).Above below) (w : World)
    (tasks : Array (Task Thread Value)) : (t.act w tasks).1.Above below := by
  have hstep := h (.ofTasks tasks) w trivial
  rw [act_eq]
  generalize (t.step (.ofTasks tasks)).run w = out at hstep
  obtain ⟨(f | cause) | move, w'⟩ := out
  · trivial
  · trivial
  · have hmove := hstep.2 move rfl
    cases move with
    | spawn name child stack => exact fun _ => hmove
    | _ => exact hmove

namespace Moment

/-- An action stays above what stands below the frame on top. -/
theorem above_act (hm : m.Open below) (hs : below <:+ m.thread.stack)
    (tasks : Array (Task Thread Value)) : (m.thread.act m.world tasks).1.Above below :=
  Thread.above_act (fun _ => Thread.above_step hs fun hover heq => by
    obtain ⟨how, hhow⟩ := ended_of_control hover heq
    exact hm how hhow) m.world tasks

theorem Step.above (hm : m.Open below) (hs : below <:+ m.thread.stack) (h : m.Step m') :
    below <:+ m'.thread.stack := by
  cases h with
  | @proceed tasks _ _ hact =>
    have habove := above_act hm hs tasks
    rw [hact] at habove
    exact habove
  | @await tasks _ _ _ hact =>
    have habove := above_act hm hs tasks
    rw [hact] at habove
    exact habove
  | @spawn tasks _ _ _ _ hact id =>
    have habove := above_act hm hs tasks
    rw [hact] at habove
    exact habove id

end Moment

/-! ## Runs inside runs -/

/-- What is at its end comes to nothing more. -/
theorem runs_of_ended {how : Option Abrupt} (h : m.Ended below how) :
    Runs below m ms e ↔ Over m ms e := by
  constructor
  · rintro (_ | ⟨hm, -⟩ | ⟨hm, -⟩)
    · exact .intro
    · exact absurd h (hm how)
    · exact absurd h (hm how)
  · rintro ⟨⟩
    exact .ended h

section Go

variable {control : Control} {stack : List Frame} {w : World}
  (h : ∀ ps, (m.thread.step ps).run m.world = (.ok (.go control stack), w))

include h

theorem act_of_go (tasks : Array (Task Thread Value)) :
    m.thread.act m.world tasks = (.proceed { m.thread with control, stack }, w) := by
  rw [Thread.act_eq, h]
  rfl

/-- A thread that goes on, whatever it is told of the tasks, has one next moment. -/
theorem Moment.Step.eq_of_go (hstep : m.Step m') : m' = ⟨w, { m.thread with control, stack }⟩ := by
  obtain ⟨hstep⟩ | ⟨hstep⟩ | ⟨hstep⟩ := hstep <;> simp [act_of_go h] at hstep
  obtain ⟨rfl, rfl⟩ := hstep
  rfl

/-- A thread that goes on, whatever it is told of the tasks, does so and nothing else. -/
theorem runs_of_go (hm : m.Open below) :
    Runs below m ms e ↔ After m (Runs below ⟨w, { m.thread with control, stack }⟩) ms e := by
  constructor
  · rintro (hended | ⟨-, hstop⟩ | ⟨-, hstep, hr⟩)
    · exact absurd hended (hm _)
    · obtain ⟨hstop⟩ | ⟨hstop⟩ := hstop <;> simp [act_of_go h] at hstop
    · rw [hstep.eq_of_go h] at hr
      exact ⟨hr⟩
  · rintro ⟨hr⟩
    exact .step hm (.proceed (act_of_go h #[])) hr

end Go

/-- A run that is stopped inside stops what is around it. -/
theorem Runs.stopped_outside {why : Halt} {w : World} (hb : below <:+ inner) (hne : inner ≠ below)
    (hs : inner <:+ m.thread.stack) (h : Runs inner m ms (.stopped why w)) :
    Runs below m ms (.stopped why w) := by
  generalize he : RunEnd.stopped why w = e at h
  induction h with
  | ended => cases he
  | stopped hm hstop =>
    cases he
    exact .stopped (Moment.open_of_above hb hne hs) hstop
  | step hm hstep _ ih =>
    exact .step (Moment.open_of_above hb hne hs) hstep (ih (hstep.above hm hs) he)

/-- A run inside, and then the rest of the run around it. -/
theorem Runs.followed {ms' : List Moment} (hb : below <:+ inner) (hne : inner ≠ below)
    (hs : inner <:+ m.thread.stack) (h : Runs inner m ms (.at m')) (hr : Runs below m' ms' e) :
    Runs below m (ms ++ ms') e := by
  generalize he : RunEnd.at m' = e' at h
  induction h with
  | ended =>
    cases he
    exact hr
  | stopped => cases he
  | step hm hstep _ ih =>
    exact .step (Moment.open_of_above hb hne hs) hstep (ih (hstep.above hm hs) he)

/-- A run inside another comes first. Up to its end everything happens above the frame that waits
    for it, and the rest follows from there. -/
theorem runs_iff_leads (hb : below <:+ inner) (hne : inner ≠ below)
    (hs : inner <:+ m.thread.stack) :
    Runs below m ms e ↔ Leads inner m (fun _ => Runs below) ms e := by
  constructor
  · -- the induction follows the run until the part inside is at its end
    intro h
    induction h with
    | ended hm => exact absurd hm (Moment.open_of_above hb hne hs _)
    | @stopped m why w hm hstop =>
      by_cases hend : ∃ how, m.Ended inner how
      · obtain ⟨how, hhow⟩ := hend
        exact @Leads.ended inner m _ [] _ _ _ _ (.ended hhow) hhow (.stopped hm hstop)
      · exact .stopped (.stopped (not_exists.mp hend) hstop)
    | @step m m' ms e hm hstep hr ih =>
      by_cases hend : ∃ how, m.Ended inner how
      · obtain ⟨how, hhow⟩ := hend
        exact @Leads.ended inner m _ [] _ _ _ _ (.ended hhow) hhow (.step hm hstep hr)
      · have hinner : m.Open inner := not_exists.mp hend
        cases ih (hstep.above hinner hs) with
        | stopped h => exact .stopped (.step hinner hstep h)
        | ended h hend' hn =>
          exact @Leads.ended inner m _ (m :: _) _ _ _ _ (.step hinner hstep h) hend' hn
  · rintro (h | ⟨h, -, hn⟩)
    · exact h.stopped_outside hb hne hs
    · exact h.followed hb hne hs hn

end CoScript
