import CoScript.Proofs.Task.Placement

/-!
# What holds of all bodies

A property of bodies that each action keeps holds of all bodies of a machine, those that run and
those that wait, whatever order they take turns in.

Results:
* `Scheduler.Everywhere`: what holds of bodies where they stand.
* `Behaviour.Keeps`: actions keep a property of bodies and one of the world.
* `Machine.Kept`: moves keep an invariant, and so do runs; `Machine.Kept.run`.
* `Machine.All`: what holds of the world and of all bodies of a machine.
* `Machine.All.tick`, `Machine.All.run`: it holds on.
-/

namespace CoScript

variable {β ν ω : Type} {W : ω → Prop} {P : β → Prop}

/-- The bodies in an action satisfy `P`. -/
def Action.All (P : β → Prop) : Action β ν → Prop
  | .proceed body => P body
  | .await _ body => P body
  | .spawn _ child parent => P child ∧ ∀ id, P (parent id)
  | .finish _ | .throw .. | .fail _ | .abort _ => True

/-- Where the bodies in an action come to stand: `R` holds of those that run, and `S` of one that
    waits. -/
def Action.Places (R S : Parked β → Prop) (id new : TaskId) : Action β ν → Prop
  | .proceed body => R ⟨id, body⟩
  | .await _ body => S ⟨id, body⟩
  | .spawn _ child parent => R ⟨new, child⟩ ∧ ∀ i, R ⟨id, parent i⟩
  | .finish _ | .throw .. | .fail _ | .abort _ => True

/-- What bodies do keeps `W` of the world and `P` of bodies. -/
structure Behaviour.Keeps (B : Behaviour β ν ω) (W : ω → Prop) (P : β → Prop) : Prop where
  act : ∀ {w} tasks {body}, W w → P body →
    (B.act w tasks body).1.All P ∧ W (B.act w tasks body).2
  resume : ∀ {body got}, P body → P (B.resume body got)
  note : ∀ {n w}, W w → W (B.note n w)

namespace Scheduler

/-! ## Bodies in their places -/

/-- Each body that runs satisfies `R`, and each that waits satisfies `S`: those in the queue, and
    those that wait with tasks. -/
structure Everywhere (R S : Parked β → Prop) (s : Scheduler β ν) : Prop where
  running : ∀ p ∈ s.running, R p
  ready : ∀ r ∈ s.ready, S r.parked
  waiting : ∀ (id : TaskId) t, s.tasks[id.index]? = some t → ∀ p ∈ t.waiters, S p

variable {s : Scheduler β ν} {R S : Parked β → Prop}

namespace Everywhere

theorem fresh (maxSteps : ℕ) : (Scheduler.fresh maxSteps : Scheduler β ν).Everywhere R S :=
  ⟨by simp [Scheduler.fresh], by simp [Scheduler.fresh], by simp [Scheduler.fresh]⟩

theorem withRunning (h : s.Everywhere R S) {running : List (Parked β)} (hr : ∀ p ∈ running, R p) :
    ({ s with running } : Scheduler β ν).Everywhere R S :=
  ⟨hr, h.ready, h.waiting⟩

theorem start (h : s.Everywhere R S) (name : String) {body : β} (hb : R ⟨s.nextId, body⟩)
    (observed : Bool) : (s.start name body observed).Everywhere R S := by
  refine ⟨fun p hp => ?_, h.ready, fun id t ht => ?_⟩
  · obtain rfl | hp := List.mem_cons.mp hp
    · exact hb
    · exact h.running p hp
  · rw [start_tasks, Array.getElem?_push] at ht
    split at ht
    · obtain rfl := Option.some.inj ht
      simp
    · exact h.waiting id t ht

theorem suspend [Inhabited ν] (h : s.Everywhere R S) {p : Parked β} (hp : S p) (a : Awaited ν) :
    (s.suspend p a).1.Everywhere R S := by
  have hready : ∀ (s' : Scheduler β ν) a', s'.ready = s.ready →
      ∀ r ∈ (s'.enqueue p a').ready, S r.parked := by
    intro s' a' hs' r hr
    simp only [enqueue, hs', List.mem_append, List.mem_singleton] at hr
    obtain hr | rfl := hr
    · exact h.ready r hr
    · exact hp
  refine ⟨?_, ?_, fun id t ht q hq => ?_⟩
  · rw [suspend_running]
    exact h.running
  · obtain ⟨v, he⟩ | ⟨_, _, _, _, _, he⟩ | ⟨_, _, _, _, _, he⟩ := s.suspend_cases p a
    · rw [he]
      exact hready s _ rfl
    · rw [he]
      exact hready _ _ rfl
    · rw [he]
      exact h.ready
  · obtain ⟨t₀, ht₀, -, hw | ⟨hw, -, -⟩⟩ := waiters_suspend s p a ht
    · exact h.waiting id t₀ ht₀ q (hw ▸ hq)
    · rw [hw, List.mem_append, List.mem_singleton] at hq
      obtain hq | rfl := hq
      · exact h.waiting id t₀ ht₀ q hq
      · exact hp

theorem settle (h : s.Everywhere R S) (id : TaskId) (state : TaskState ν) :
    (s.settle id state).Everywhere R S := by
  unfold Scheduler.settle
  split
  · exact h
  · rename_i t ht
    refine ⟨h.running, fun r hr => ?_, fun id' t' ht' q hq => ?_⟩
    · obtain hr | hr := List.mem_append.mp hr
      · exact h.ready r hr
      · obtain ⟨p, hp, rfl⟩ := List.mem_map.mp hr
        exact h.waiting id t ht p hp
    · simp only [Array.getElem?_modify] at ht'
      split at ht'
      · obtain ⟨t₁, -, rfl⟩ := Option.map_eq_some_iff.mp ht'
        simp at hq
      · exact h.waiting id' t' ht' q hq

theorem report (h : s.Everywhere R S) : s.report.Everywhere R S :=
  ⟨h.running, h.ready, h.waiting⟩

end Everywhere

/-- All bodies of a scheduler satisfy `P`: those that run, those in the queue, and those that wait
    with tasks. -/
structure All (P : β → Prop) (s : Scheduler β ν) : Prop where
  running : ∀ p ∈ s.running, P p.body
  ready : ∀ r ∈ s.ready, P r.parked.body
  waiting : ∀ (id : TaskId) t, s.tasks[id.index]? = some t → ∀ p ∈ t.waiters, P p.body

theorem all_iff : s.All P ↔ s.Everywhere (P ·.body) (P ·.body) :=
  ⟨fun h => ⟨h.running, h.ready, h.waiting⟩, fun h => ⟨h.running, h.ready, h.waiting⟩⟩

theorem all_fresh (maxSteps : ℕ) : (fresh maxSteps : Scheduler β ν).All P :=
  all_iff.mpr (.fresh maxSteps)

theorem All.withRunning (h : s.All P) {running : List (Parked β)}
    (hr : ∀ p ∈ running, P p.body) : ({ s with running } : Scheduler β ν).All P :=
  all_iff.mpr ((all_iff.mp h).withRunning hr)

theorem All.start (h : s.All P) (name : String) {body : β} (hb : P body) (observed : Bool) :
    (s.start name body observed).All P :=
  all_iff.mpr ((all_iff.mp h).start name hb observed)

theorem All.suspend [Inhabited ν] (h : s.All P) {p : Parked β} (hp : P p.body) (a : Awaited ν) :
    (s.suspend p a).1.All P :=
  all_iff.mpr ((all_iff.mp h).suspend hp a)

theorem All.settle (h : s.All P) (id : TaskId) (state : TaskState ν) : (s.settle id state).All P :=
  all_iff.mpr ((all_iff.mp h).settle id state)

theorem All.report (h : s.All P) : s.report.All P :=
  all_iff.mpr (all_iff.mp h).report

end Scheduler

namespace Machine

variable {B : Behaviour β ν ω} {m m' : Machine β ν ω}

/-- `W` holds of the world of a machine, and `P` of all its bodies. -/
structure All (W : ω → Prop) (P : β → Prop) (m : Machine β ν ω) : Prop where
  world : W m.world
  bodies : m.sched.All P

theorem All.start (hB : B.Keeps W P) (h : m.All W P) (name : String) {body : β} (hb : P body)
    (observed : Bool) : (start B m name body observed).All W P :=
  ⟨hB.note h.world, h.bodies.start name hb observed⟩

theorem All.startMain (hB : B.Keeps W P) (h : m.All W P) (name : String) {body : β}
    (hb : P body) : (startMain B name body m).All W P := by
  obtain ⟨hw, hs⟩ := h.start hB name hb true
  exact ⟨hw, hs.running, hs.ready, hs.waiting⟩

theorem All.settle (hB : B.Keeps W P) (h : m.All W P) (id : TaskId) (state : TaskState ν) :
    (settle B m id state).All W P :=
  ⟨hB.note h.world, h.bodies.settle id state⟩

/-! ## Invariants -/

/-- The machine that a move leads to satisfies `J`, also when the run ends there. -/
def Progress.Satisfies (J : Machine β ν ω → Prop) : Progress (Machine β ν ω) → Prop
  | .next m | .idle m | .halted _ m => J m

theorem Progress.Satisfies.imp {J J' : Machine β ν ω → Prop} {p : Progress (Machine β ν ω)}
    (hJ : ∀ m, J m → J' m) (h : Progress.Satisfies J p) : Progress.Satisfies J' p := by
  cases p <;> exact hJ _ h

variable [Inhabited ν]

/-- An invariant of machines that moves keep, and reports too. -/
structure Kept (B : Behaviour β ν ω) (J : Machine β ν ω → Prop) : Prop where
  tick : ∀ {m}, J m → Progress.Satisfies J (Machine.tick B m)
  report : ∀ {m : Machine β ν ω}, J m → J { m with sched := m.sched.report }

namespace Kept

variable {J : Machine β ν ω → Prop} {fuel : ℕ}

theorem after (hJ : Kept B J) (h : J m) (n : ℕ) : J (after (Machine.tick B) n m) := by
  induction n generalizing m with
  | zero => exact h
  | succ n ih =>
    have hmove := hJ.tick h
    unfold Machine.after
    split
    · rename_i m₁ hm
      rw [hm] at hmove
      exact ih hmove
    · exact h

theorem iterate (hJ : Kept B J) (h : J m) {out : Except Halt Unit}
    (hi : iterate (Machine.tick B) fuel m = some (out, m')) : J m' := by
  induction fuel, m, hi using iterate_induction with
  | next fuel m m₁ hmove _ ih =>
    have hmoved := hJ.tick h
    rw [hmove] at hmoved
    exact ih hmoved
  | idle fuel m hmove | halted fuel m why hmove =>
    have hmoved := hJ.tick h
    rwa [hmove] at hmoved

theorem drain (hJ : Kept B J) (h : J m) {out : Except Halt Unit}
    (hd : drain B fuel m = some (out, m')) : J m' := by
  obtain ⟨m₁, hi, ⟨-, rfl⟩ | ⟨why, -, rfl⟩⟩ := drain_eq_some hd
  · exact hJ.report (hJ.iterate h hi)
  · exact hJ.iterate h hi

theorem run (hJ : Kept B J) {name : String} {body : β} (h : J (startMain B name body m))
    {out : Except Halt TaskId} (hr : run B fuel name body m = some (out, m')) : J m' := by
  obtain ⟨ended, hd, -⟩ := run_eq_some hr
  exact hJ.drain h hd

end Kept

/-! ## All bodies -/

/-- What holds of bodies on the machine that a move leads to, also when the run ends there. -/
def Progress.Everywhere (R S : Parked β → Prop) : Progress (Machine β ν ω) → Prop
  | .next m | .idle m | .halted _ m => m.sched.Everywhere R S

/-- The machine that a move leads to satisfies `W` and `P`, also when the run ends there. -/
def Progress.All (W : ω → Prop) (P : β → Prop) : Progress (Machine β ν ω) → Prop
  | .next m | .idle m | .halted _ m => m.All W P

/-- An action takes effect: its bodies come to stand where they belong. -/
theorem everywhere_perform {R S : Parked β → Prop} {id : TaskId} {outer : List (Parked β)}
    {a : Action β ν} (h : (m.withRunning outer).sched.Everywhere R S)
    (ha : a.Places R S id m.sched.nextId) :
    Progress.Everywhere R S (perform B m id outer a) := by
  cases a with
  | proceed body => exact h.withRunning (List.forall_mem_cons.mpr ⟨ha, h.running⟩)
  | await what body => exact h.suspend ha what
  | spawn name child parent =>
    exact (h.withRunning (List.forall_mem_cons.mpr ⟨ha.2 _, h.running⟩)).start name ha.1 false
  | finish v => exact h.settle id _
  | throw v pos => exact h.settle id _
  | fail f =>
    simp only [Machine.perform]
    split
    · exact h
    · exact h.settle id _
  | abort => exact h.withRunning (by simp)

theorem All.perform (hB : B.Keeps W P) (h : m.All W P) {id : TaskId} {outer : List (Parked β)}
    (ho : ∀ p ∈ outer, P p.body) {a : Action β ν} (ha : a.All P) :
    Progress.All W P (perform B m id outer a) := by
  have hrunning : ∀ {running}, (∀ p ∈ running, P p.body) → (m.withRunning running).All W P :=
    fun hr => ⟨h.world, h.bodies.withRunning hr⟩
  have hcons : ∀ {body}, P body → ∀ p ∈ (⟨id, body⟩ :: outer : List (Parked β)), P p.body := by
    intro body hb p hp
    obtain rfl | hp := List.mem_cons.mp hp
    · exact hb
    · exact ho p hp
  cases a with
  | proceed body => exact hrunning (hcons ha)
  | await what body =>
    exact ⟨hB.note (hrunning ho).world, (hrunning ho).bodies.suspend (p := ⟨id, body⟩) ha what⟩
  | spawn name child parent => exact (hrunning (hcons (ha.2 _))).start hB name ha.1 false
  | finish v => exact (hrunning ho).settle hB id _
  | throw v pos => exact (hrunning ho).settle hB id _
  | fail f =>
    simp only [Machine.perform]
    split
    · exact hrunning ho
    · have hnoted (n : Notice) : All W P
          { m.withRunning outer with world := B.note n m.world } :=
        ⟨hB.note h.world, (hrunning ho).bodies⟩
      exact (hnoted _).settle hB id _
  | abort => exact hrunning (by simp)

theorem All.act (hB : B.Keeps W P) (h : m.All W P) : Progress.All W P (act B m) := by
  obtain ⟨s, w⟩ := m
  unfold Machine.act
  dsimp only
  split
  · exact h
  · rename_i id body outer hr
    have hrun := h.bodies.running
    simp only [hr, List.mem_cons, forall_eq_or_imp] at hrun
    obtain ⟨ha, hw⟩ := hB.act s.tasks h.world hrun.1
    exact All.perform (m := ⟨s, _⟩) hB ⟨hw, h.bodies⟩ hrun.2 ha

theorem All.dispatch (hB : B.Keeps W P) (h : m.All W P) :
    Progress.All W P (dispatch B m) := by
  unfold Machine.dispatch Scheduler.next?
  cases hq : m.sched.ready with
  | nil => exact h
  | cons r rest =>
    have hready := h.bodies.ready
    simp only [hq, List.mem_cons, forall_eq_or_imp] at hready
    dsimp only
    split
    · exact h
    · refine ⟨h.world, fun p hp => ?_, hready.2, h.bodies.waiting⟩
      obtain rfl := List.mem_singleton.mp hp
      exact hB.resume hready.1

/-- One move keeps what holds of the world and of all bodies. -/
theorem All.tick (hB : B.Keeps W P) (h : m.All W P) : Progress.All W P (tick B m) := by
  unfold Machine.tick
  split
  · exact h.dispatch hB
  · exact h.act hB

/-- What holds of the world and of all bodies is an invariant. -/
theorem kept_all (hB : B.Keeps W P) : Kept B (All W P) where
  tick {m} h := by
    have hmove := h.tick hB
    cases hm : Machine.tick B m <;> rw [hm] at hmove <;> exact hmove
  report h := ⟨h.world, h.bodies.report⟩

theorem All.after (hB : B.Keeps W P) (h : m.All W P) (n : ℕ) :
    (after (Machine.tick B) n m).All W P :=
  (kept_all hB).after h n

theorem All.run (hB : B.Keeps W P) (h : m.All W P) {fuel : ℕ} {name : String} {body : β}
    {out : Except Halt TaskId} (hr : run B fuel name body m = some (out, m')) (hb : P body) :
    m'.All W P :=
  (kept_all hB).run (h.startMain hB name hb) hr

end Machine

end CoScript
