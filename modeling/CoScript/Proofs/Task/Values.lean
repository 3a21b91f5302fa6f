import CoScript.Proofs.Task.Bodies

/-!
# What holds of bodies and values at a stage

What bodies hold and what they give each other may depend on how far the world has come. A property
of bodies and values that holds at a stage and at all later ones, and that each action carries over
to the stage which it leads to, holds of all bodies of a machine, of what tasks ended with and of
what waits to be delivered.

Results:
* `Staging`: what holds of worlds, bodies and values at stages.
* `Behaviour.Advances`: actions keep this, and get the world to the same stage or a later one.
* `Machine.At`: it holds of a machine at a stage.
* `Machine.kept_from`: it holds on, at the same stage or a later one.
-/

namespace CoScript

/-- What holds of worlds, bodies and values at the stages that a world goes through. -/
structure Staging (β ν ω : Type) where
  world : ℕ → ω → Prop
  body : ℕ → β → Prop
  value : ℕ → ν → Prop

variable {β ν ω : Type} {P : β → Prop} {Q : ν → Prop}

/-- The value that a task ended with satisfies `Q`. -/
def TaskState.All (Q : ν → Prop) : TaskState ν → Prop
  | .fulfilled v | .thrown v _ => Q v
  | .pending | .failed _ => True

/-- The value that waits to be delivered satisfies `Q`. -/
def Awaited.All (Q : ν → Prop) : Awaited ν → Prop
  | .value v => Q v
  | .task _ => True

/-- The value that is delivered satisfies `Q`. -/
def Delivery.All (Q : ν → Prop) : Delivery ν → Prop
  | .value v | .thrown v _ => Q v
  | .failed _ => True

/-- The values that a body gives away satisfy `Q`. -/
def Action.Gives (Q : ν → Prop) : Action β ν → Prop
  | .await what _ => what.All Q
  | .finish v | .throw v _ => Q v
  | .proceed _ | .spawn .. | .fail _ | .abort _ => True

/-- What a body does, which may look at the values that tasks ended with, gets the world to the same
    stage or a later one, and what holds of bodies and values at stages holds of those in the
    action. -/
structure Behaviour.Advances [Inhabited ν] (B : Behaviour β ν ω) (G : Staging β ν ω) : Prop where
  body_mono : ∀ {n n' body}, n ≤ n' → G.body n body → G.body n' body
  value_mono : ∀ {n n' v}, n ≤ n' → G.value n v → G.value n' v
  default : ∀ {n}, G.value n default
  act : ∀ {n w tasks body}, G.world n w → (∀ t ∈ tasks, t.state.All (G.value n)) →
    G.body n body →
    ∃ n', n ≤ n' ∧ (B.act w tasks body).1.All (G.body n') ∧
      (B.act w tasks body).1.Gives (G.value n') ∧ G.world n' (B.act w tasks body).2
  resume : ∀ {n body got}, G.body n body → got.All (G.value n) → G.body n (B.resume body got)
  note : ∀ {n x w}, G.world n w → G.world n (B.note x w)

namespace Scheduler

/-- All bodies satisfy `P`, and what tasks ended with and what waits to be delivered satisfies
    `Q`. -/
structure Holds (P : β → Prop) (Q : ν → Prop) (s : Scheduler β ν) : Prop where
  bodies : s.All P
  states : ∀ id, (s.stateOf id).All Q
  queue : ∀ r ∈ s.ready, r.awaited.All Q

namespace Holds

variable {s : Scheduler β ν}

theorem fresh (maxSteps : ℕ) : (Scheduler.fresh maxSteps : Scheduler β ν).Holds P Q where
  bodies := all_fresh maxSteps
  states id := by simp [Scheduler.fresh, stateOf, TaskState.All]
  queue := by simp [Scheduler.fresh]

theorem mono {P' : β → Prop} {Q' : ν → Prop} (h : s.Holds P Q) (hP : ∀ b, P b → P' b)
    (hQ : ∀ v, Q v → Q' v) : s.Holds P' Q' where
  bodies := ⟨fun p hp => hP _ (h.bodies.running p hp), fun r hr => hP _ (h.bodies.ready r hr),
    fun id t ht p hp => hP _ (h.bodies.waiting id t ht p hp)⟩
  states id := by
    have hid := h.states id
    cases hs : s.stateOf id <;> rw [hs] at hid <;> first | exact hQ _ hid | trivial
  queue r hr := by
    have hr := h.queue r hr
    cases ha : r.awaited <;> rw [ha] at hr <;> first | exact hQ _ hr | trivial

theorem withRunning (h : s.Holds P Q) {running : List (Parked β)} (hr : ∀ p ∈ running, P p.body) :
    ({ s with running } : Scheduler β ν).Holds P Q :=
  ⟨h.bodies.withRunning hr, h.states, h.queue⟩

theorem start (h : s.Holds P Q) (name : String) {body : β} (hb : P body) (observed : Bool) :
    (s.start name body observed).Holds P Q where
  bodies := h.bodies.start name hb observed
  states id := by
    rw [stateOf_start]
    exact h.states id
  queue := h.queue

theorem queue_enqueue (h : s.Holds P Q) (p : Parked β) {a : Awaited ν} (ha : a.All Q) :
    ∀ r ∈ (s.enqueue p a).ready, r.awaited.All Q :=
  List.forall_mem_append.mpr ⟨h.queue, by simpa using ha⟩

theorem suspend [Inhabited ν] (h : s.Holds P Q) (hd : Q default) {p : Parked β} (hp : P p.body)
    {a : Awaited ν} (ha : a.All Q) : (s.suspend p a).1.Holds P Q where
  bodies := h.bodies.suspend hp a
  states id := by
    rw [stateOf_suspend]
    exact h.states id
  queue := by
    unfold Scheduler.suspend
    split
    · exact h.queue_enqueue p ha
    · split
      · exact h.queue_enqueue p hd
      · split
        · exact h.queue_enqueue p ha
        · exact h.queue

theorem settle (h : s.Holds P Q) (id : TaskId) {state : TaskState ν} (hs : state.All Q) :
    (s.settle id state).Holds P Q where
  bodies := h.bodies.settle id state
  states x := by
    by_cases hx : x = id
    · subst hx
      cases ht : s.tasks[x.index]? with
      | none =>
        simp only [Scheduler.settle, ht]
        exact h.states x
      | some t =>
        rw [stateOf_settle_self ht]
        exact hs
    · rw [stateOf_settle_of_ne s state hx]
      exact h.states x
  queue := by
    unfold Scheduler.settle
    split
    · exact h.queue
    · refine List.forall_mem_append.mpr ⟨h.queue, fun r hr => ?_⟩
      obtain ⟨p, -, rfl⟩ := List.mem_map.mp hr
      trivial

theorem report (h : s.Holds P Q) : s.report.Holds P Q :=
  ⟨h.bodies.report, h.states, h.queue⟩

theorem of_mem (h : s.Holds P Q) : ∀ t ∈ s.tasks, t.state.All Q := by
  intro t ht
  obtain ⟨i, hi, rfl⟩ := Array.mem_iff_getElem.mp ht
  have hid := h.states ⟨i⟩
  rwa [stateOf, Array.getElem?_eq_getElem hi] at hid

/-- What a body gets is what waited to be delivered or what a task ended with. -/
theorem delivery [Inhabited ν] (h : s.Holds P Q) (hd : Q default) {a : Awaited ν}
    (ha : a.All Q) : (s.delivery a).All Q := by
  cases a with
  | value v => exact ha
  | task id =>
    have hid := h.states id
    unfold Scheduler.delivery
    dsimp only
    split <;> rename_i hs
    · exact hd
    all_goals
      rw [hs] at hid
      exact hid

end Holds

end Scheduler

namespace Machine

variable {B : Behaviour β ν ω} {G : Staging β ν ω} {m m' : Machine β ν ω} {n : ℕ}

/-- What holds at a stage holds of the world of a machine, of its bodies and of its values. -/
structure At (G : Staging β ν ω) (n : ℕ) (m : Machine β ν ω) : Prop where
  world : G.world n m.world
  sched : m.sched.Holds (G.body n) (G.value n)

/-- A machine is at a stage from `n` on. -/
def From (G : Staging β ν ω) (n : ℕ) (m : Machine β ν ω) : Prop :=
  ∃ n', n ≤ n' ∧ m.At G n'

theorem At.here (h : m.At G n) : m.From G n :=
  ⟨n, Nat.le_refl n, h⟩

theorem From.mono {n' : ℕ} (hn : n ≤ n') (h : m.From G n') : m.From G n :=
  h.imp fun _ hk => ⟨Nat.le_trans hn hk.1, hk.2⟩

variable [Inhabited ν]

theorem At.start (hB : B.Advances G) (h : m.At G n) (name : String) {body : β}
    (hb : G.body n body) (observed : Bool) : (start B m name body observed).At G n :=
  ⟨hB.note h.world, h.sched.start name hb observed⟩

theorem At.startMain (hB : B.Advances G) (h : m.At G n) (name : String) {body : β}
    (hb : G.body n body) : (startMain B name body m).At G n := by
  obtain ⟨hw, hs⟩ := h.start hB name hb true
  exact ⟨hw, ⟨hs.bodies.running, hs.bodies.ready, hs.bodies.waiting⟩, hs.states, hs.queue⟩

theorem At.settle (hB : B.Advances G) (h : m.At G n) (id : TaskId) {state : TaskState ν}
    (hs : state.All (G.value n)) : (settle B m id state).At G n :=
  ⟨hB.note h.world, h.sched.settle id hs⟩

/-- An action takes effect at the stage that it has led to. -/
theorem At.perform (hB : B.Advances G) (h : m.At G n) {id : TaskId} {outer : List (Parked β)}
    (ho : ∀ p ∈ outer, G.body n p.body) {a : Action β ν} (ha : a.All (G.body n))
    (hg : a.Gives (G.value n)) : Progress.Satisfies (At G n) (perform B m id outer a) := by
  have hrunning {running : List (Parked β)} (hr : ∀ p ∈ running, G.body n p.body) :
      (m.withRunning running).At G n := ⟨h.world, h.sched.withRunning hr⟩
  have hcons {body : β} (hb : G.body n body) :
      ∀ p ∈ (⟨id, body⟩ :: outer : List (Parked β)), G.body n p.body :=
    List.forall_mem_cons.mpr ⟨hb, ho⟩
  cases a with
  | proceed body => exact hrunning (hcons ha)
  | await what body =>
    exact ⟨hB.note (hrunning ho).world,
      (hrunning ho).sched.suspend hB.default (p := ⟨id, body⟩) ha hg⟩
  | spawn name child parent => exact (hrunning (hcons (ha.2 _))).start hB name ha.1 false
  | finish v => exact (hrunning ho).settle hB id hg
  | throw v pos => exact (hrunning ho).settle hB id hg
  | fail f =>
    simp only [Machine.perform]
    split
    · exact hrunning ho
    · have hnoted (x : Notice) : At G n { m.withRunning outer with world := B.note x m.world } :=
        ⟨hB.note h.world, (hrunning ho).sched⟩
      exact (hnoted _).settle hB id trivial
  | abort => exact hrunning (by simp)

theorem At.act (hB : B.Advances G) (h : m.At G n) :
    Progress.Satisfies (From G n) (act B m) := by
  obtain ⟨s, w⟩ := m
  unfold Machine.act
  dsimp only
  split
  · exact h.here
  · rename_i id body outer hr
    have hrun := h.sched.bodies.running
    simp only [hr, List.mem_cons, forall_eq_or_imp] at hrun
    obtain ⟨n', hn, ha, hg, hw⟩ := hB.act h.world h.sched.of_mem hrun.1
    have hsched : s.Holds (G.body n') (G.value n') :=
      h.sched.mono (fun _ hb => hB.body_mono hn hb) fun _ hv => hB.value_mono hn hv
    exact .imp (fun _ hm => ⟨n', hn, hm⟩) <| At.perform (m := ⟨s, _⟩) hB ⟨hw, hsched⟩
      (fun p hp => hB.body_mono hn (hrun.2 p hp)) ha hg

theorem At.dispatch (hB : B.Advances G) (h : m.At G n) :
    Progress.Satisfies (At G n) (dispatch B m) := by
  unfold Machine.dispatch Scheduler.next?
  cases hq : m.sched.ready with
  | nil => exact h
  | cons r rest =>
    have hready := h.sched.bodies.ready
    have hqueue := h.sched.queue
    simp only [hq, List.mem_cons, forall_eq_or_imp] at hready hqueue
    dsimp only
    split
    · exact h
    · refine ⟨h.world, ⟨fun p hp => ?_, hready.2, h.sched.bodies.waiting⟩,
        h.sched.states, hqueue.2⟩
      obtain rfl := List.mem_singleton.mp hp
      exact hB.resume hready.1 (h.sched.delivery hB.default hqueue.1)

theorem At.tick (hB : B.Advances G) (h : m.At G n) :
    Progress.Satisfies (From G n) (tick B m) := by
  unfold Machine.tick
  split
  · exact .imp (fun _ hm => hm.here) (h.dispatch hB)
  · exact h.act hB

/-- Moves keep what holds at stages, and get a machine to the same stage or a later one. -/
theorem kept_from (hB : B.Advances G) (n : ℕ) : Kept B (From G n) where
  tick {m} h := by
    obtain ⟨n', hn, hm⟩ := h
    exact .imp (fun _ hm' => hm'.mono hn) (hm.tick hB)
  report {m} h := by
    obtain ⟨n', hn, hm⟩ := h
    exact ⟨n', hn, hm.world, hm.sched.report⟩

end Machine

end CoScript
