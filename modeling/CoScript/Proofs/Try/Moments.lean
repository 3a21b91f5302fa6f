import CoScript.Proofs.Task.Bodies
import CoScript.Proofs.Task.Budget
import CoScript.Proofs.Task.Rejections
import CoScript.Proofs.Try.Runs
import Mathlib.Data.List.Chain

/-!
# The moments of a task on a machine

Tasks take turns on a machine, and between its calls the host does what it likes to the world. Seen
from one task all this is a sequence of moments, each a step from the one before: wherever the
thread stands once it has acted, there is no other place from which it goes on. So what a task goes
through between the start of a part of a program and its end is a run of that part.

Results:
* `Machine.Acts`: the moments at which a task acts while a host leads a machine.
* `Machine.Acts.isChain`: each of them is a step from the one before.
* `Machine.Acts.run`: they go on through the calls of the host.
* `Machine.Acts.runs`: what a task goes through in a part of a program is a run of the part.
-/

namespace CoScript

variable {Q : Moment → Prop} {id : TaskId}

/-! ## Where a thread goes on -/

/-- If the thread of an action goes on, then in a moment that satisfies `Q`. -/
def Action.Continues (Q : Moment → Prop) (w : World) : Action Thread Value → Prop
  | .proceed t => Q ⟨w, t⟩
  | .await _ t => ∀ got later, Q ⟨later, t.resume got⟩
  | .spawn _ _ parent => ∀ id later, Q ⟨later, parent id⟩
  | .finish _ | .throw .. | .fail _ | .abort _ => True

theorem Moment.continues (a : Moment) (tasks : Array (Task Thread Value)) :
    (a.thread.act a.world tasks).1.Continues a.Step (a.thread.act a.world tasks).2 := by
  generalize hact : a.thread.act a.world tasks = out
  obtain ⟨action, w⟩ := out
  cases action with
  | proceed t => exact .proceed hact
  | await what t => exact fun got later => .await hact got later
  | spawn name child parent => exact fun id later => .spawn hact id later
  | _ => trivial

namespace Scheduler

/-- A task exists, and wherever its thread stands, it goes on from there in a moment that satisfies
    `Q`, whatever it gets and whatever the world is by then. -/
structure Continues (Q : Moment → Prop) (id : TaskId) (s : Scheduler Thread Value) : Prop where
  known : id.index < s.tasks.size
  bodies : s.Everywhere (fun p => p.id = id → ∀ w, Q ⟨w, p.body⟩)
    fun p => p.id = id → ∀ got w, Q ⟨w, p.body.resume got⟩

variable {s : Scheduler Thread Value} {failed : List TaskId}

namespace Continues

theorem withRunning (h : s.Continues Q id) {running : List (Parked Thread)}
    (hr : ∀ p ∈ running, p.id = id → ∀ w, Q ⟨w, p.body⟩) :
    ({ s with running } : Scheduler Thread Value).Continues Q id :=
  ⟨h.known, h.bodies.withRunning hr⟩

theorem start (h : s.Continues Q id) (name : String) (body : Thread) (observed : Bool) :
    (s.start name body observed).Continues Q id := by
  refine ⟨?_, h.bodies.start name (fun hid => ?_) observed⟩
  · rw [start_tasks, Array.size_push]
    exact Nat.lt_succ_of_lt h.known
  · -- the task that starts is another one
    subst hid
    exact absurd h.known (Nat.lt_irrefl _)

theorem suspend (h : s.Continues Q id) {p : Parked Thread} (a : Awaited Value)
    (hp : p.id = id → ∀ got w, Q ⟨w, p.body.resume got⟩) : (s.suspend p a).1.Continues Q id := by
  refine ⟨?_, h.bodies.suspend hp a⟩
  rw [size_tasks_suspend]
  exact h.known

theorem settle (h : s.Continues Q id) (i : TaskId) (state : TaskState Value) :
    (s.settle i state).Continues Q id := by
  refine ⟨?_, h.bodies.settle i state⟩
  rw [size_tasks_settle]
  exact h.known

end Continues

/-- A task that runs stands nowhere else. -/
theorem Accounted.continues_outer (h : s.Accounted failed) {body : Thread}
    {outer : List (Parked Thread)} (hr : s.running = ⟨id, body⟩ :: outer) :
    ({ s with running := outer } : Scheduler Thread Value).Continues Q id := by
  have hcount := h.count_outer hr id
  rw [List.count_singleton_self] at hcount
  have houter : id ∉ outer.map (·.id) := by
    rw [← List.count_eq_zero]
    split at hcount <;> omega
  have hstanding : id ∉ s.standing := by
    rw [← List.count_eq_zero]
    split at hcount <;> omega
  rw [standing, List.mem_append, not_or] at hstanding
  have hpending := (h.of_running (p := ⟨id, body⟩) (by rw [hr]; exact List.mem_cons_self)).1
  refine ⟨lt_of_isPending hpending, fun p hp hid => ?_, fun r hr hid => ?_,
    fun i t ht p hp hid => ?_⟩
  · exact absurd (List.mem_map.mpr ⟨p, hp, hid⟩) houter
  · exact absurd (List.mem_map.mpr ⟨r, hr, hid⟩) hstanding.1
  · have hmem : t ∈ s.tasks.toList := Array.mem_toList_iff.mpr (Array.mem_of_getElem? ht)
    exact absurd (List.mem_flatMap.mpr ⟨t, hmem, List.mem_map.mpr ⟨p, hp, hid⟩⟩) hstanding.2

end Scheduler

/-! ## One move -/

/-- The state that a move leads to, also when the run ends there. -/
def Progress.state {σ : Type} : Progress σ → σ
  | .next s | .idle s | .halted _ s => s

namespace Machine

/-- If a task acts in the next move of a machine, the moment at which it does. -/
def momentsOf (m : Machine Thread Value World) (id : TaskId) : List Moment :=
  match m.sched.running with
  | [] => []
  | p :: _ => if p.id = id then [⟨m.world, p.body⟩] else []

theorem momentsOf_cases (m : Machine Thread Value World) (id : TaskId) :
    m.momentsOf id = [] ∨ ∃ a, m.momentsOf id = [a] := by
  unfold momentsOf
  split
  · exact .inl rfl
  · split
    · exact .inr ⟨_, rfl⟩
    · exact .inl rfl

theorem mem_momentsOf {m : Machine Thread Value World} {a : Moment} : a ∈ m.momentsOf id ↔
    ∃ p outer, m.sched.running = p :: outer ∧ p.id = id ∧ a = ⟨m.world, p.body⟩ := by
  unfold momentsOf
  cases m.sched.running with
  | nil => simp
  | cons p outer => by_cases hid : p.id = id <;> simp [hid]

/-- A task exists, and the next moment at which it acts satisfies `Q`. -/
structure Continues (Q : Moment → Prop) (id : TaskId) (m : Machine Thread Value World) : Prop where
  now : ∀ a ∈ m.momentsOf id, Q a
  later : (m.withRunning m.sched.running.tail).sched.Continues Q id

variable {m : Machine Thread Value World} {failed : List TaskId}

theorem Continues.of_sched (h : m.sched.Continues Q id) : m.Continues Q id := by
  refine ⟨fun a ha => ?_, h.withRunning fun p hp => h.bodies.running p (List.mem_of_mem_tail hp)⟩
  obtain ⟨p, outer, hr, hid, rfl⟩ := mem_momentsOf.mp ha
  exact h.bodies.running p (by rw [hr]; exact List.mem_cons_self) hid _

theorem Continues.of_rest (h : m.Continues Q id) (hr : m.sched.running = []) :
    m.sched.Continues Q id :=
  ⟨h.later.known, by simp [hr], h.later.bodies.ready, h.later.bodies.waiting⟩

/-- An action takes effect: a task goes on from where its thread comes to stand. -/
theorem continues_perform {i : TaskId} {outer : List (Parked Thread)}
    (h : (m.withRunning outer).sched.Continues Q id) {action : Action Thread Value}
    (haction : i = id → action.Continues Q m.world) :
    (perform script m i outer action).state.Continues Q id := by
  cases action with
  | proceed t =>
    refine ⟨fun a ha => ?_, h⟩
    obtain ⟨p, outer', hr, hid, rfl⟩ := mem_momentsOf.mp ha
    obtain ⟨rfl, -⟩ := List.cons.inj hr
    exact haction hid
  | await what t => exact .of_sched (h.suspend what haction)
  | spawn name child parent =>
    have hparent : (m.withRunning (⟨i, parent m.sched.nextId⟩ :: outer)).sched.Continues Q id :=
      h.withRunning (List.forall_mem_cons.mpr ⟨fun hid => haction hid _, h.bodies.running⟩)
    exact .of_sched (hparent.start name child false)
  | finish v => exact .of_sched (h.settle i _)
  | throw v pos => exact .of_sched (h.settle i _)
  | fail f =>
    unfold perform
    dsimp only
    split
    · exact .of_sched h
    · exact .of_sched (h.settle i _)
  | abort => exact .of_sched (h.withRunning (by simp))

theorem tick_of_running_eq {i : TaskId} {body : Thread} {outer : List (Parked Thread)}
    (hr : m.sched.running = ⟨i, body⟩ :: outer) : tick script m =
      perform script ⟨m.sched, (body.act m.world m.sched.tasks).2⟩ i outer
        (body.act m.world m.sched.tasks).1 := by
  obtain ⟨s, w⟩ := m
  dsimp only at hr
  rw [tick_of_running (by simp [hr])]
  simp only [act, hr]
  rfl

/-- A task that acts goes on by a step. -/
theorem continues_tick {a : Moment} (h : m.sched.Accounted failed) (ha : a ∈ m.momentsOf id) :
    (tick script m).state.Continues a.Step id := by
  obtain ⟨p, outer, hr, rfl, rfl⟩ := mem_momentsOf.mp ha
  rw [tick_of_running_eq hr]
  exact continues_perform (m := ⟨m.sched, (p.body.act m.world m.sched.tasks).2⟩)
    (h.continues_outer hr) fun _ => Moment.continues ⟨m.world, p.body⟩ m.sched.tasks

/-- While other tasks act, a task stays where it is or becomes ready to go on. -/
theorem Continues.tick (h : m.Continues Q id) (hm : m.momentsOf id = []) :
    (tick script m).state.Continues Q id := by
  cases hr : m.sched.running with
  | nil =>
    cases hq : m.sched.ready with
    | nil =>
      rw [tick_of_rest hr hq]
      exact h
    | cons r rest =>
      rw [tick_of_ready hr hq]
      split
      · exact h
      · have hready := h.later.bodies.ready
        refine ⟨fun a ha => ?_, h.later.known, by simp [turn, withRunning, Progress.state],
          fun r' hr' => ?_, h.later.bodies.waiting⟩
        · obtain ⟨p, outer, hp, hid, rfl⟩ := mem_momentsOf.mp ha
          obtain ⟨rfl, -⟩ := List.cons.inj hp
          exact hready r (hq ▸ List.mem_cons_self) hid _ _
        · exact hready r' (hq ▸ List.mem_cons_of_mem r hr')
  | cons p outer =>
    have hother : p.id ≠ id := by
      rintro rfl
      simp [momentsOf, hr] at hm
    rw [tick_of_running_eq hr]
    refine continues_perform ?_ fun hid => absurd hid hother
    have hlater := h.later
    rwa [hr] at hlater

/-- A move leaves the account in order, also when the run ends there. -/
theorem accounted_tick (h : m.sched.Accounted failed) :
    ∃ failed, (tick script m).state.sched.Accounted failed := by
  cases hmove : tick script m with
  | next m' => exact ⟨_, h.step (tick_next hmove)⟩
  | idle m' =>
    obtain ⟨rfl, -⟩ := tick_idle hmove
    exact ⟨_, h⟩
  | halted why m' =>
    cases why with
    | aborted =>
      rw [Progress.state, (tick_aborted hmove).2]
      exact ⟨_, h.dropped⟩
    | fault f =>
      unfold tick at hmove
      split at hmove
      · rename_i hr
        exact ⟨_, h.step (dispatch_halted (List.isEmpty_iff.mp hr) hmove).1⟩
      · exact ⟨_, h.step (act_fault hmove).1⟩

/-! ## Many moves -/

/-- The moments at which a task acts, in order, while a host leads a machine. Between calls, when no
    body runs, the host may start a task, report rejections and change the world. -/
inductive Acts (id : TaskId) (m₀ : Machine Thread Value World) :
    List Moment → Machine Thread Value World → Prop
  | none : Acts id m₀ [] m₀
  | tick {ms : List Moment} {m : Machine Thread Value World} (h : Acts id m₀ ms m) :
    Acts id m₀ (ms ++ m.momentsOf id) (tick script m).state
  | start {ms : List Moment} {m : Machine Thread Value World} (h : Acts id m₀ ms m)
    (hr : m.sched.running = []) (name : String) (body : Thread) (observed : Bool)
    (main : Option TaskId) (world : World) :
    Acts id m₀ ms ⟨{ m.sched.start name body observed with main }, world⟩
  | report {ms : List Moment} {m : Machine Thread Value World} (h : Acts id m₀ ms m)
    (hr : m.sched.running = []) : Acts id m₀ ms ⟨m.sched.report, m.world⟩
  | world {ms : List Moment} {m : Machine Thread Value World} (h : Acts id m₀ ms m)
    (hr : m.sched.running = []) (world : World) : Acts id m₀ ms ⟨m.sched, world⟩

namespace Acts

variable {maxSteps : ℕ} {world : World} {ms before after rest : List Moment}

/-- From its last moment a task goes on by a step. -/
theorem invariant (h : Acts id ⟨.fresh maxSteps, world⟩ ms m) :
    (∃ failed, m.sched.Accounted failed) ∧ ms.IsChain Moment.Step ∧
      ∀ a ∈ ms.getLast?, m.Continues a.Step id := by
  induction h with
  | none => exact ⟨⟨[], Scheduler.accounted_fresh maxSteps⟩, .nil, by simp⟩
  | @tick ms m _ ih =>
    obtain ⟨⟨failed, hacc⟩, hchain, hlast⟩ := ih
    refine ⟨accounted_tick hacc, ?_⟩
    obtain hm | ⟨b, hm⟩ := m.momentsOf_cases id
    · rw [hm, List.append_nil]
      exact ⟨hchain, fun a ha => (hlast a ha).tick hm⟩
    · have hb : b ∈ m.momentsOf id := by rw [hm]; exact List.mem_cons_self
      rw [hm]
      refine ⟨hchain.append (.singleton b) fun a ha b' hb' => ?_, fun a ha => ?_⟩
      · obtain rfl := Option.some.inj hb'
        exact (hlast a ha).now b hb
      · rw [List.getLast?_concat] at ha
        obtain rfl := Option.some.inj ha
        exact continues_tick hacc hb
  | @start ms m _ hr name body observed main w ih =>
    obtain ⟨⟨failed, hacc⟩, hchain, hlast⟩ := ih
    have hstart := hacc.start name body observed
    refine ⟨⟨failed, hstart.1, hstart.2, hstart.3, hstart.4⟩, hchain, fun a ha => .of_sched ?_⟩
    have hlater := ((hlast a ha).of_rest hr).start name body observed
    exact ⟨hlater.known, hlater.bodies.running, hlater.bodies.ready, hlater.bodies.waiting⟩
  | @report ms m _ hr ih =>
    obtain ⟨⟨failed, hacc⟩, hchain, hlast⟩ := ih
    refine ⟨⟨failed, hacc.1, hacc.2, hacc.3, hacc.4⟩, hchain, fun a ha => .of_sched ?_⟩
    have hlater := (hlast a ha).of_rest hr
    exact ⟨hlater.known, hlater.bodies.report⟩
  | @world ms m _ hr w ih =>
    obtain ⟨hacc, hchain, hlast⟩ := ih
    exact ⟨hacc, hchain, fun a ha => .of_sched ((hlast a ha).of_rest hr)⟩

/-- Each moment of a task is a step from the one before. -/
theorem isChain (h : Acts id ⟨.fresh maxSteps, world⟩ ms m) : ms.IsChain Moment.Step :=
  h.invariant.2.1

/-! ### Calls -/

variable {m₀ m' : Machine Thread Value World} {fuel : ℕ}

theorem iterate (h : Acts id m₀ ms m) {out : Except Halt Unit}
    (hi : Machine.iterate (Machine.tick script) fuel m = some (out, m')) :
    ∃ ms', Acts id m₀ (ms ++ ms') m' := by
  induction fuel, m, hi using Machine.iterate_induction generalizing ms with
  | next fuel m m₁ hmove _ ih =>
    have htick := h.tick
    rw [hmove] at htick
    obtain ⟨ms', hms'⟩ := ih htick
    exact ⟨_, List.append_assoc .. ▸ hms'⟩
  | idle fuel m hmove | halted fuel m why hmove =>
    have htick := h.tick
    rw [hmove] at htick
    exact ⟨_, htick⟩

theorem drain (h : Acts id m₀ ms m) {out : Except Halt Unit}
    (hd : Machine.drain script fuel m = some (out, m')) : ∃ ms', Acts id m₀ (ms ++ ms') m' := by
  obtain ⟨m₁, hi, hend⟩ := drain_eq_some hd
  obtain ⟨ms', hms'⟩ := h.iterate hi
  obtain ⟨rfl, rfl⟩ | ⟨why, -, rfl⟩ := hend
  · exact ⟨ms', hms'.report (tick_idle (faithful_tick.idle_iterate hi)).2.1⟩
  · exact ⟨ms', hms'⟩

/-- The moments of a task go on from those before while the host runs a main task. -/
theorem run (h : Acts id m₀ ms m) (hr : m.sched.running = []) {name : String} {body : Thread}
    {out : Except Halt TaskId} (hrun : Machine.run script fuel name body m = some (out, m')) :
    ∃ ms', Acts id m₀ (ms ++ ms') m' := by
  obtain ⟨ended, hd, -⟩ := run_eq_some hrun
  exact (h.start hr name body true _ _).drain hd

end Acts

end Machine

/-! ## Runs of parts -/

variable {below : List Frame} {first last : Moment} {ms before after rest : List Moment}
  {e : RunEnd}

/-- Steps inside a part of a program, and then the rest of a run of the part. -/
theorem Runs.of_chain (hchain : (ms ++ [last]).IsChain Moment.Step)
    (hopen : ∀ a ∈ ms, a.Open below) (hr : Runs below last rest e)
    (hfirst : first ∈ (ms ++ [last]).head?) : Runs below first (ms ++ rest) e := by
  induction ms generalizing first with
  | nil =>
    obtain rfl := Option.some.inj hfirst
    exact hr
  | cons a ms ih =>
    obtain rfl := Option.some.inj hfirst
    obtain ⟨hopena, hopenms⟩ := List.forall_mem_cons.mp hopen
    obtain ⟨hstep, htail⟩ := List.isChain_cons.mp hchain
    obtain ⟨b, hb⟩ : ∃ b, b ∈ (ms ++ [last]).head? := by cases ms <;> simp
    exact .step hopena (hstep b hb) (ih htail hopenms hb)

/-- What a thread is in at a moment, and stays in from each step to the next, it is in at the
    end. -/
theorem Moment.along_chain {P : List Moment → Moment → Prop} (start : P [] first)
    (step : ∀ {before now next}, P before now → now.Step next → P (before ++ [now]) next)
    (hchain : (first :: ms).IsChain Moment.Step) :
    ∃ before now, first :: ms = before ++ [now] ∧ P before now := by
  induction ms using List.reverseRecOn with
  | nil => exact ⟨[], first, rfl, start⟩
  | append_singleton ms m ih =>
    rw [← List.cons_append] at hchain ⊢
    obtain ⟨before, now, heq, h⟩ := ih hchain.left_of_append
    rw [heq] at hchain ⊢
    have hstep : now.Step m := (List.isChain_append.mp hchain).2.2 now (by simp) m rfl
    exact ⟨before ++ [now], m, rfl, step h hstep⟩

/-- What a task goes through in a part of a program, from its first moment in the part on, is a run
    of the part: the task comes to the end of the part, or is stopped in it. -/
theorem Machine.Acts.runs {id : TaskId} {maxSteps : ℕ} {world : World}
    {m : Machine Thread Value World}
    (h : Acts id ⟨.fresh maxSteps, world⟩ (before ++ (ms ++ [last]) ++ after) m)
    (hopen : ∀ a ∈ ms, a.Open below) (hr : Runs below last rest e)
    (hfirst : first ∈ (ms ++ [last]).head?) : Runs below first (ms ++ rest) e := by
  have hchain := h.isChain.left_of_append.right_of_append
  exact .of_chain hchain hopen hr hfirst

end CoScript
