import CoScript.Task.Machine
import Mathlib.Data.List.Basic

/-!
# Histories of tasks

What happens to tasks is written down as a list of events, the earliest first. A history says
nothing of the bodies: whatever they do, a move of a machine is one of the steps below.

Results:
* `Scheduler.Step`, `Scheduler.Steps`: what one move, and many of them, do to the tasks.
* `Machine.Calls`: the calls of a host one after the other, with their events.
* `Machine.iterate_induction`: what to show of runs of moves that come to an end.
* `Machine.Calls.steps`: the calls of a host are steps, and between them no body runs.
-/

namespace CoScript

/-! ## Events -/

/-- Something that happens to a task or to all of them. -/
inductive Event (ν : Type) where
  | started (id : TaskId) (isMain : Bool)
  | proceeded (id : TaskId)
  | awaited (id : TaskId) (what : Awaited ν)
  | settled (id : TaskId) (state : TaskState ν)
  /-- a fault of the main task ends a run -/
  | mainFailed (id : TaskId) (fault : Fault)
  | resumed (id : TaskId) (got : Delivery ν)
  /-- no turn is left although bodies can go on -/
  | limitReached
  /-- all tasks are given up -/
  | aborted
  /-- the queue is empty, and rejections are reported -/
  | drained
  /-- a run gives its main task to the host -/
  | returned (id : TaskId)

/-- The main tasks that ended in a fault. -/
def failedMains {ν : Type} (es : List (Event ν)) : List TaskId :=
  es.filterMap fun
    | .mainFailed id _ => some id
    | _ => none

@[simp] theorem failedMains_nil {ν : Type} : failedMains ([] : List (Event ν)) = [] := rfl

@[simp] theorem failedMains_append {ν : Type} (es es' : List (Event ν)) :
    failedMains (es ++ es') = failedMains es ++ failedMains es' :=
  List.filterMap_append

namespace Scheduler

variable {β ν : Type} [Inhabited ν]

/-! ## Steps -/

/-- What one move does to the tasks. The bodies that go on are arbitrary. -/
inductive Step : Scheduler β ν → Event ν → Scheduler β ν → Prop
  | spawn {s : Scheduler β ν} (name : String) (body : β) (hr : s.running = []) :
    Step s (.started s.nextId false) (s.start name body false)
  | run {s : Scheduler β ν} (name : String) (body : β) (hr : s.running = []) :
    Step s (.started s.nextId true) { s.start name body true with main := some s.nextId }
  | proceed {s : Scheduler β ν} {id : TaskId} {body : β} {outer : List (Parked β)} (body' : β)
      (hr : s.running = ⟨id, body⟩ :: outer) :
    Step s (.proceeded id) { s with running := ⟨id, body'⟩ :: outer }
  | child {s : Scheduler β ν} {id : TaskId} {body : β} {outer : List (Parked β)} (name : String)
      (child parent : β) (hr : s.running = ⟨id, body⟩ :: outer) :
    Step s (.started s.nextId false)
      ({ s with running := ⟨id, parent⟩ :: outer }.start name child false)
  | await {s : Scheduler β ν} {id : TaskId} {body : β} {outer : List (Parked β)}
      (what : Awaited ν) (body' : β) (hr : s.running = ⟨id, body⟩ :: outer) :
    Step s (.awaited id what) ({ s with running := outer }.suspend ⟨id, body'⟩ what).1
  | settle {s : Scheduler β ν} {id : TaskId} {body : β} {outer : List (Parked β)}
      (state : TaskState ν) (hr : s.running = ⟨id, body⟩ :: outer) (hs : state.isSettled)
      (hm : ∀ f, state = .failed f → s.main ≠ some id) :
    Step s (.settled id state) ({ s with running := outer }.settle id state)
  | mainFails {s : Scheduler β ν} {id : TaskId} {body : β} {outer : List (Parked β)} (f : Fault)
      (hr : s.running = ⟨id, body⟩ :: outer) (hm : s.main = some id) :
    Step s (.mainFailed id f) { s with running := outer }
  | resume {s : Scheduler β ν} {p : Parked β} {a : Awaited ν} {rest : List (Ready β ν)} (body' : β)
      (hr : s.running = []) (hq : s.ready = ⟨p, a⟩ :: rest) (hl : s.steps < s.maxSteps) :
    Step s (.resumed p.id (s.delivery a))
      { s with ready := rest, steps := s.steps + 1, running := [⟨p.id, body'⟩] }
  | limit {s : Scheduler β ν} (hr : s.running = []) (hq : s.ready ≠ [])
      (hl : s.maxSteps ≤ s.steps) : Step s .limitReached s
  | drain {s : Scheduler β ν} (hr : s.running = []) (hq : s.ready = []) : Step s .drained s.report
  | return {s : Scheduler β ν} {id : TaskId} (hr : s.running = []) (hm : s.main = some id)
      (hs : (s.stateOf id).isSettled) : Step s (.returned id) s

/-- What many moves do to the tasks, with their events in order. -/
inductive Steps : Scheduler β ν → List (Event ν) → Scheduler β ν → Prop
  | refl (s : Scheduler β ν) : Steps s [] s
  | snoc {s s' s'' : Scheduler β ν} {es : List (Event ν)} {e : Event ν} :
    Steps s es s' → Step s' e s'' → Steps s (es ++ [e]) s''

theorem Steps.single {s s' : Scheduler β ν} {e : Event ν} (h : Step s e s') : Steps s [e] s' :=
  (Steps.refl s).snoc h

theorem Steps.trans {s s' s'' : Scheduler β ν} {es es' : List (Event ν)} (h : Steps s es s')
    (h' : Steps s' es' s'') : Steps s (es ++ es') s'' := by
  induction h' with
  | refl => simpa using h
  | snoc _ hstep ih =>
    rw [← List.append_assoc]
    exact ih.snoc hstep

/-- Only the start of a run changes which task is the main one. -/
theorem Step.main_eq {s s' : Scheduler β ν} {e : Event ν} (h : Step s e s')
    (he : e ≠ .started s.nextId true) : s'.main = s.main := by
  cases h with
  | run name body hr => exact absurd rfl he
  | await what body' hr => simp
  | settle state hr hs hm => simp
  | _ => rfl

/-! ## The main task runs outermost -/

/-- The main task exists, and among running bodies only the outermost may be its body. -/
structure MainOutermost (s : Scheduler β ν) : Prop where
  exists_main : ∀ id, s.main = some id → id.index < s.tasks.size
  outermost : ∀ p ∈ s.running.dropLast, s.main ≠ some p.id

theorem mem_dropLast_cons {α : Type} {x a : α} {l : List α} (h : x ∈ l.dropLast) :
    x ∈ (a :: l).dropLast := by
  cases l with
  | nil => simp at h
  | cons b l => simp [h]

theorem MainOutermost.step {s s' : Scheduler β ν} {e : Event ν} (hs : s.MainOutermost)
    (h : Step s e s') : s'.MainOutermost := by
  obtain ⟨hex, hout⟩ := hs
  have hpop : ∀ {p outer}, s.running = p :: outer → ∀ q ∈ outer.dropLast, s.main ≠ some q.id :=
    fun hr q hq => hout q (by rw [hr]; exact mem_dropLast_cons hq)
  cases h with
  | spawn name body hr =>
    refine ⟨fun id hid => ?_, by simp [hr]⟩
    have := hex id hid
    simp
    omega
  | run name body hr =>
    refine ⟨fun id hid => ?_, by simp [hr]⟩
    obtain rfl : s.nextId = id := by simpa using hid
    simp [nextId]
  | @proceed id body outer body' hr =>
    refine ⟨hex, fun p hp => ?_⟩
    rw [hr] at hout
    cases outer with
    | nil => simp at hp
    | cons q outer =>
      simp only [List.dropLast_cons_cons, List.mem_cons] at hp
      obtain rfl | hp := hp
      · exact hout ⟨id, body⟩ (by simp)
      · exact hout p (by simp [hp])
  | @child id body outer name child parent hr =>
    refine ⟨fun id hid => ?_, fun p hp => ?_⟩
    · have := hex id hid
      simp
      omega
    · rw [hr] at hout
      simp only [start_running, List.dropLast_cons_cons, List.mem_cons] at hp
      obtain rfl | hp := hp
      · intro hm
        have := hex _ hm
        simp [nextId] at this
      · cases outer with
        | nil => simp at hp
        | cons q outer =>
          simp only [List.dropLast_cons_cons, List.mem_cons] at hp
          obtain rfl | hp := hp
          · exact hout ⟨id, body⟩ (by simp)
          · exact hout p (by simp [hp])
  | await what body' hr => exact ⟨by simpa using hex, by simpa using hpop hr⟩
  | settle state hr _ _ => exact ⟨by simpa using hex, by simpa using hpop hr⟩
  | mainFails f hr hm => exact ⟨hex, hpop hr⟩
  | resume body' hr hq hl => exact ⟨hex, by simp⟩
  | limit => exact ⟨hex, hout⟩
  | drain => exact ⟨hex, hout⟩
  | «return» => exact ⟨hex, hout⟩

omit [Inhabited ν] in
/-- Once the main task fails, no body runs. -/
theorem MainOutermost.eq_nil {s : Scheduler β ν} (h : s.MainOutermost) {p : Parked β}
    {outer : List (Parked β)} (hr : s.running = p :: outer) (hm : s.main = some p.id) :
    outer = [] := by
  cases outer with
  | nil => rfl
  | cons q outer => exact absurd hm (h.outermost p (by simp [hr]))

theorem MainOutermost.steps {s s' : Scheduler β ν} {es : List (Event ν)} (hs : s.MainOutermost)
    (h : Steps s es s') : s'.MainOutermost := by
  induction h with
  | refl => exact hs
  | snoc _ hstep ih => exact ih.step hstep

omit [Inhabited ν] in
theorem mainOutermost_fresh (maxSteps : ℕ) :
    (fresh maxSteps : Scheduler β ν).MainOutermost :=
  ⟨by simp [fresh], by simp [fresh]⟩

end Scheduler

namespace Machine

variable {β ν ω : Type} [Inhabited ν] (B : Behaviour β ν ω)

/-! ## The events of a machine -/

/-- The event of the next move of a machine. -/
def event (m : Machine β ν ω) : Event ν :=
  match m.sched.running with
  | [] =>
    match m.sched.next? with
    | none => .drained
    | some (p, got, _) =>
      if m.sched.maxSteps ≤ m.sched.steps then .limitReached else .resumed p.id got
  | ⟨id, body⟩ :: _ =>
    match (B.act m.world m.sched.tasks body).1 with
    | .proceed _ => .proceeded id
    | .await what _ => .awaited id what
    | .spawn .. => .started m.sched.nextId false
    | .finish v => .settled id (.fulfilled v)
    | .throw v pos => .settled id (.thrown v pos)
    | .fail f =>
      if m.sched.main = some id then .mainFailed id f
      else .settled id (.failed (f.inTask (m.sched.labelOf id)))
    | .abort _ => .aborted

/-- The events of moves until nothing is left to do or the run is cut short. -/
def trace (move : Machine β ν ω → Progress (Machine β ν ω)) : ℕ → Machine β ν ω → List (Event ν)
  | 0, _ => []
  | fuel + 1, m =>
    match move m with
    | .next m' => m.event B :: trace move fuel m'
    | .idle _ => []
    | .halted .. => [m.event B]

/-- The machine after at most `n` moves; it stops before a move that ends the run. -/
def after (move : Machine β ν ω → Progress (Machine β ν ω)) : ℕ → Machine β ν ω → Machine β ν ω
  | 0, m => m
  | n + 1, m =>
    match move m with
    | .next m' => after move n m'
    | _ => m

/-- The events of a host's call to start a task. -/
def spawnEvents (fuel : ℕ) (name : String) (body : β) (m : Machine β ν ω) : List (Event ν) :=
  .started m.sched.nextId false :: trace B (act B) fuel (start B m name body false)

/-- The events of a host's call to drain the queue. -/
def drainEvents (fuel : ℕ) (m : Machine β ν ω) : List (Event ν) :=
  trace B (tick B) fuel m ++
    match drain B fuel m with
    | some (.ok (), _) => [.drained]
    | _ => []

/-- The events of a host's call to run a main task. -/
def runEvents (fuel : ℕ) (name : String) (body : β) (m : Machine β ν ω) : List (Event ν) :=
  .started m.sched.nextId true :: drainEvents B fuel (startMain B name body m) ++
    match run B fuel name body m with
    | some (.ok id, _) => [.returned id]
    | _ => []

/-- Calls of a host one after the other on a machine, with their events and the machine that they
    leave. Calls end with a result or a fault; a machine that gave up is not called again. -/
inductive Calls (m₀ : Machine β ν ω) : List (Event ν) → Machine β ν ω → Prop
  | none : Calls m₀ [] m₀
  | spawn {es : List (Event ν)} {m m' : Machine β ν ω} {fuel : ℕ} {name : String} {body : β}
      {out : Except Halt TaskId} (h : Calls m₀ es m)
      (hout : spawn B fuel name body m = some (out, m'))
      (hna : ∀ cause, out ≠ .error (.aborted cause)) :
      Calls m₀ (es ++ spawnEvents B fuel name body m) m'
  | run {es : List (Event ν)} {m m' : Machine β ν ω} {fuel : ℕ} {name : String} {body : β}
      {out : Except Halt TaskId} (h : Calls m₀ es m)
      (hout : run B fuel name body m = some (out, m'))
      (hna : ∀ cause, out ≠ .error (.aborted cause)) :
      Calls m₀ (es ++ runEvents B fuel name body m) m'
  | drain {es : List (Event ν)} {m m' : Machine β ν ω} {fuel : ℕ} {out : Except Halt Unit}
      (h : Calls m₀ es m) (hout : drain B fuel m = some (out, m'))
      (hna : ∀ cause, out ≠ .error (.aborted cause)) :
      Calls m₀ (es ++ drainEvents B fuel m) m'

/-! ## Moves are steps -/

section Moves

variable {B} {m m' : Machine β ν ω}

theorem act_next (h : act B m = .next m') : m.sched.Step (m.event B) m'.sched := by
  obtain ⟨s, w⟩ := m
  simp only [act, event] at h ⊢
  cases hr : s.running with
  | nil => simp [hr] at h
  | cons r outer =>
    obtain ⟨id, body⟩ := r
    simp only [hr] at h ⊢
    cases ha : (B.act w s.tasks body).1 with
    | proceed body' =>
      simp only [ha, perform, Progress.next.injEq] at h ⊢
      subst h
      exact .proceed body' hr
    | await what body' =>
      simp only [ha, perform, Progress.next.injEq] at h ⊢
      subst h
      exact .await what body' hr
    | spawn name child parent =>
      simp only [ha, perform, Progress.next.injEq] at h ⊢
      subst h
      exact .child name child _ hr
    | finish v =>
      simp only [ha, perform, Progress.next.injEq] at h ⊢
      subst h
      exact .settle _ hr rfl (by simp)
    | throw v pos =>
      simp only [ha, perform, Progress.next.injEq] at h ⊢
      subst h
      exact .settle _ hr rfl (by simp)
    | fail f =>
      simp only [ha, perform] at h ⊢
      split at h
      · simp at h
      · rename_i hmain
        simp only [Progress.next.injEq] at h
        subst h
        rw [if_neg hmain]
        exact .settle _ hr rfl (fun _ _ => hmain)
    | abort => simp [ha, perform] at h

/-- A fault that halts a running body is that of the main task. -/
theorem act_fault {f : Fault} (h : act B m = .halted (.fault f) m') :
    m.sched.Step (m.event B) m'.sched ∧
      ∃ p outer, m.sched.running = p :: outer ∧ m.sched.main = some p.id ∧
        m'.sched.running = outer := by
  obtain ⟨s, w⟩ := m
  simp only [act, event] at h ⊢
  cases hr : s.running with
  | nil => simp [hr] at h
  | cons r outer =>
    obtain ⟨id, body⟩ := r
    simp only [hr] at h ⊢
    cases ha : (B.act w s.tasks body).1 with
    | fail g =>
      simp only [ha, perform] at h ⊢
      split at h
      · rename_i hmain
        simp only [Progress.halted.injEq, Halt.fault.injEq] at h
        obtain ⟨rfl, rfl⟩ := h
        rw [if_pos hmain]
        exact ⟨.mainFails g hr hmain, _, _, rfl, hmain, rfl⟩
      · simp at h
    | _ => simp [ha, perform] at h

theorem act_idle (h : act B m = .idle m') : m' = m ∧ m.sched.running = [] := by
  obtain ⟨s, w⟩ := m
  simp only [act] at h
  cases hr : s.running with
  | nil => simp only [hr, Progress.idle.injEq] at h; exact ⟨h.symm, rfl⟩
  | cons r outer =>
    simp only [hr] at h
    cases ha : (B.act w s.tasks r.body).1 <;> simp [ha, perform] at h
    split at h <;> simp at h

theorem dispatch_next (hr : m.sched.running = []) (h : dispatch B m = .next m') :
    m.sched.Step (m.event B) m'.sched := by
  simp only [dispatch, Scheduler.next?, event, hr] at h ⊢
  cases hq : m.sched.ready with
  | nil => simp [hq] at h
  | cons r rest =>
    obtain ⟨p, a⟩ := r
    simp only [hq] at h ⊢
    split at h
    · simp at h
    · rename_i hl
      simp only [Progress.next.injEq] at h
      subst h
      rw [if_neg hl]
      exact .resume _ hr hq (by omega)

theorem dispatch_halted {why : Halt} (hr : m.sched.running = [])
    (h : dispatch B m = .halted why m') :
    m.sched.Step (m.event B) m'.sched ∧ m' = m := by
  simp only [dispatch, Scheduler.next?, event, hr] at h ⊢
  cases hq : m.sched.ready with
  | nil => simp [hq] at h
  | cons r rest =>
    obtain ⟨p, a⟩ := r
    simp only [hq] at h ⊢
    split at h
    · rename_i hl
      simp only [Progress.halted.injEq] at h
      obtain ⟨-, rfl⟩ := h
      rw [if_pos hl]
      exact ⟨.limit hr (by simp [hq]) hl, rfl⟩
    · simp at h

theorem dispatch_idle (h : dispatch B m = .idle m') : m' = m ∧ m.sched.ready = [] := by
  simp only [dispatch, Scheduler.next?] at h
  cases hq : m.sched.ready with
  | nil => simp only [hq, Progress.idle.injEq] at h; exact ⟨h.symm, rfl⟩
  | cons r rest =>
    simp only [hq] at h
    split at h <;> simp at h

theorem tick_next (h : tick B m = .next m') : m.sched.Step (m.event B) m'.sched := by
  unfold tick at h
  split at h
  · rename_i hr
    exact dispatch_next (List.isEmpty_iff.mp hr) h
  · exact act_next h

theorem tick_idle (h : tick B m = .idle m') :
    m' = m ∧ m.sched.running = [] ∧ m.sched.ready = [] := by
  unfold tick at h
  split at h
  · rename_i hr
    obtain ⟨h1, h2⟩ := dispatch_idle h
    exact ⟨h1, List.isEmpty_iff.mp hr, h2⟩
  · rename_i hr
    have := (act_idle h).2
    simp [this] at hr

/-- A move that goes on is no failure of the main task. -/
theorem failedMains_event_of_act_next (h : act B m = .next m') :
    failedMains [m.event B] = [] := by
  obtain ⟨s, w⟩ := m
  simp only [act, event] at h ⊢
  cases hr : s.running with
  | nil => simp [hr] at h
  | cons r outer =>
    simp only [hr] at h ⊢
    cases ha : (B.act w s.tasks r.body).1 with
    | fail f =>
      simp only [ha, perform] at h ⊢
      split at h
      · simp at h
      · rename_i hmain
        rw [if_neg hmain]
        rfl
    | _ => rfl

theorem failedMains_event_of_dispatch (hr : m.sched.running = []) :
    failedMains [m.event B] = [] := by
  simp only [event, hr]
  cases m.sched.next? with
  | none => rfl
  | some r => dsimp only; split <;> rfl

theorem event_ne_started (id : TaskId) : m.event B ≠ .started id true := by
  unfold event
  cases m.sched.running with
  | nil =>
    cases m.sched.next? with
    | none => simp
    | some r => dsimp only; split <;> simp
  | cons r outer =>
    dsimp only
    cases (B.act m.world m.sched.tasks r.body).1 with
    | fail f => dsimp only; split <;> simp
    | _ => simp

/-! ## Runs of moves are runs of steps -/

variable (B) in
/-- A way to move whose moves are steps, which rests only when no body runs, and leaves no body
    running when a fault halts it. -/
structure Faithful (move : Machine β ν ω → Progress (Machine β ν ω)) : Prop where
  next : ∀ {m m'}, move m = .next m' →
    m.sched.Step (m.event B) m'.sched ∧ failedMains [m.event B] = []
  idle : ∀ {m m'}, move m = .idle m' → m' = m ∧ m.sched.running = []
  halted : ∀ {m m' f}, move m = .halted (.fault f) m' → m.sched.MainOutermost →
    m.sched.Step (m.event B) m'.sched ∧ m'.sched.running = []

theorem faithful_act : Faithful B (act B) where
  next h := ⟨act_next h, failedMains_event_of_act_next h⟩
  idle h := act_idle h
  halted h hm := by
    obtain ⟨hstep, p, outer, hr, hmain, hr'⟩ := act_fault h
    exact ⟨hstep, hr'.trans (hm.eq_nil hr hmain)⟩

theorem faithful_tick : Faithful B (tick B) where
  next {m m'} h := by
    refine ⟨tick_next h, ?_⟩
    unfold tick at h
    split at h
    · rename_i hr
      exact failedMains_event_of_dispatch (List.isEmpty_iff.mp hr)
    · exact failedMains_event_of_act_next h
  idle h := ⟨(tick_idle h).1, (tick_idle h).2.1⟩
  halted {m m' f} h hm := by
    unfold tick at h
    split at h
    · rename_i hr
      have hr := List.isEmpty_iff.mp hr
      obtain ⟨hstep, rfl⟩ := dispatch_halted hr h
      exact ⟨hstep, hr⟩
    · exact (faithful_act (B := B)).halted h hm

variable {move : Machine β ν ω → Progress (Machine β ν ω)}

omit [Inhabited ν] in
/-- A run of moves that comes to an end is a move with a run after it, or a move that ends it. -/
@[elab_as_elim]
theorem iterate_induction {out : Except Halt Unit} {m' : Machine β ν ω}
    {motive : ∀ (fuel : ℕ) (m : Machine β ν ω), iterate move fuel m = some (out, m') → Prop}
    (next : ∀ fuel m m₁ (hmove : move m = .next m₁) (h : iterate move fuel m₁ = some (out, m')),
      motive fuel m₁ h → motive (fuel + 1) m (by rw [iterate, hmove]; exact h))
    (idle : ∀ fuel m (hmove : move m = .idle m') (hout : out = .ok ()),
      motive (fuel + 1) m (by rw [iterate, hmove, hout]))
    (halted : ∀ fuel m why (hmove : move m = .halted why m') (hout : out = .error why),
      motive (fuel + 1) m (by rw [iterate, hmove, hout]))
    (fuel : ℕ) (m : Machine β ν ω) (h : iterate move fuel m = some (out, m')) :
    motive fuel m h := by
  induction fuel generalizing m with
  | zero => cases h
  | succ fuel ih =>
    have hrun := h
    rw [iterate] at hrun
    cases hmove : move m with
    | next m₁ =>
      rw [hmove] at hrun
      exact next fuel m m₁ hmove hrun (ih m₁ hrun)
    | idle m₁ =>
      rw [hmove] at hrun
      obtain ⟨rfl, rfl⟩ := Prod.mk.inj (Option.some.inj hrun)
      exact idle fuel m hmove rfl
    | halted why m₁ =>
      rw [hmove] at hrun
      obtain ⟨rfl, rfl⟩ := Prod.mk.inj (Option.some.inj hrun)
      exact halted fuel m why hmove rfl

/-! ### The events of runs -/

theorem trace_next (h : move m = .next m') (fuel : ℕ) :
    trace B move (fuel + 1) m = m.event B :: trace B move fuel m' := by
  rw [trace, h]

theorem trace_idle (h : move m = .idle m') (fuel : ℕ) : trace B move (fuel + 1) m = [] := by
  rw [trace, h]

theorem trace_halted {why : Halt} (h : move m = .halted why m') (fuel : ℕ) :
    trace B move (fuel + 1) m = [m.event B] := by
  rw [trace, h]

theorem Faithful.after_steps (hf : Faithful B move) (n : ℕ) (m : Machine β ν ω) :
    ∃ es, m.sched.Steps es (after move n m).sched ∧ failedMains es = [] := by
  induction n generalizing m with
  | zero => exact ⟨[], .refl _, rfl⟩
  | succ n ih =>
    unfold after
    cases h : move m with
    | next m₁ =>
      obtain ⟨hstep, hnf⟩ := hf.next h
      obtain ⟨es, hes, hes'⟩ := ih m₁
      refine ⟨m.event B :: es, (Scheduler.Steps.single hstep).trans hes, ?_⟩
      rw [← List.singleton_append, failedMains_append, hnf, hes']
      rfl
    | idle m₁ => exact ⟨[], .refl _, rfl⟩
    | halted why m₁ => exact ⟨[], .refl _, rfl⟩

theorem Faithful.iterate_steps (hf : Faithful B move) {fuel : ℕ} {out : Except Halt Unit}
    (hm : m.sched.MainOutermost) (h : iterate move fuel m = some (out, m'))
    (hna : ∀ cause, out ≠ .error (.aborted cause)) :
    m.sched.Steps (trace B move fuel m) m'.sched ∧ m'.sched.running = [] ∧
      m'.sched.main = m.sched.main ∧ (out = .ok () → move m' = .idle m') := by
  induction fuel, m, h using iterate_induction with
  | next fuel m m₁ hmove h ih =>
    obtain ⟨hstep, -⟩ := hf.next hmove
    obtain ⟨hes, hr, hmain, hidle⟩ := ih (hm.step hstep)
    rw [trace_next hmove]
    exact ⟨(Scheduler.Steps.single hstep).trans hes, hr,
      hmain.trans (hstep.main_eq (event_ne_started _)), hidle⟩
  | idle fuel m hmove =>
    rw [trace_idle hmove]
    obtain ⟨rfl, hr⟩ := hf.idle hmove
    exact ⟨.refl _, hr, rfl, fun _ => hmove⟩
  | halted fuel m why hmove hout =>
    subst hout
    rw [trace_halted hmove]
    cases why with
    | aborted cause => exact absurd rfl (hna cause)
    | fault f =>
      obtain ⟨hstep, hr⟩ := hf.halted hmove hm
      exact ⟨.single hstep, hr, hstep.main_eq (event_ne_started _), by simp⟩

end Moves

/-! ## Calls are runs of steps -/

section Calls

variable {B} {m m' : Machine β ν ω} {fuel : ℕ} {name : String} {body : β}

variable (B) (name) (body) in
theorem start_step (hr : m.sched.running = []) :
    m.sched.Step (.started m.sched.nextId false) (start B m name body false).sched :=
  .spawn name body hr

variable (B) (name) (body) in
theorem startMain_step (hr : m.sched.running = []) :
    m.sched.Step (.started m.sched.nextId true) (startMain B name body m).sched :=
  .run name body hr

/-! ### What calls end with -/

/-- A host gets the new task if the step of the task comes to its end, and otherwise what has ended
    the step. -/
theorem exists_ended_of_spawn {out : Except Halt TaskId}
    (h : spawn B fuel name body m = some (out, m')) :
    ∃ ended, iterate (act B) fuel (start B m name body false) = some (ended, m') ∧
      out = ended.map fun _ => m.sched.nextId := by
  rw [spawn] at h
  cases hi : iterate (act B) fuel (start B m name body false) with
  | none => simp [hi] at h
  | some r =>
    obtain ⟨ended, m₁⟩ := r
    rw [hi] at h
    cases ended <;> obtain ⟨rfl, rfl⟩ := Prod.mk.inj (Option.some.inj h) <;> exact ⟨_, rfl, rfl⟩

/-- A drain whose moves come to an end reports then, unless they are cut short. -/
theorem drain_eq_some {out : Except Halt Unit} (h : drain B fuel m = some (out, m')) :
    ∃ m₁, iterate (tick B) fuel m = some (out, m₁) ∧
      (out = .ok () ∧ m' = { m₁ with sched := m₁.sched.report } ∨
        ∃ why, out = .error why ∧ m' = m₁) := by
  rw [drain] at h
  cases hi : iterate (tick B) fuel m with
  | none => simp [hi] at h
  | some r =>
    obtain ⟨ended, m₁⟩ := r
    rw [hi] at h
    cases ended with
    | ok u =>
      obtain ⟨rfl, rfl⟩ := Prod.mk.inj (Option.some.inj h)
      exact ⟨m₁, rfl, .inl ⟨rfl, rfl⟩⟩
    | error why =>
      obtain ⟨rfl, rfl⟩ := Prod.mk.inj (Option.some.inj h)
      exact ⟨m₁, rfl, .inr ⟨why, rfl, rfl⟩⟩

/-- What a run leaves is what its drain leaves. -/
theorem run_eq_some {out : Except Halt TaskId} (h : run B fuel name body m = some (out, m')) :
    ∃ ended, drain B fuel (startMain B name body m) = some (ended, m') ∧
      out = ended.bind fun _ => conclude m.sched.nextId m' := by
  rw [run] at h
  cases hd : drain B fuel (startMain B name body m) with
  | none => simp [hd] at h
  | some r =>
    obtain ⟨ended, m₁⟩ := r
    rw [hd] at h
    cases ended <;> obtain ⟨rfl, rfl⟩ := Prod.mk.inj (Option.some.inj h) <;> exact ⟨_, rfl, rfl⟩

/-! ### The steps of a call -/

theorem spawn_steps {out : Except Halt TaskId} (hr : m.sched.running = [])
    (hm : m.sched.MainOutermost) (h : spawn B fuel name body m = some (out, m'))
    (hna : ∀ cause, out ≠ .error (.aborted cause)) :
    m.sched.Steps (spawnEvents B fuel name body m) m'.sched ∧ m'.sched.running = [] := by
  have hstart := start_step B name body hr
  obtain ⟨ended, hi, rfl⟩ := exists_ended_of_spawn h
  have hna' : ∀ cause, ended ≠ .error (.aborted cause) := by
    rintro cause rfl
    exact hna cause rfl
  obtain ⟨hes, hr', -⟩ := faithful_act.iterate_steps (hm.step hstart) hi hna'
  exact ⟨(Scheduler.Steps.single hstart).trans hes, hr'⟩

/-- A drain that ends normally leaves an empty queue. -/
theorem drain_steps {out : Except Halt Unit} (hm : m.sched.MainOutermost)
    (h : drain B fuel m = some (out, m')) (hna : ∀ cause, out ≠ .error (.aborted cause)) :
    m.sched.Steps (drainEvents B fuel m) m'.sched ∧ m'.sched.running = [] ∧
      m'.sched.main = m.sched.main ∧ (out = .ok () → m'.sched.ready = []) := by
  unfold drainEvents
  rw [h]
  obtain ⟨m₁, hi, hend⟩ := drain_eq_some h
  obtain ⟨hes, hr, hmain, hidle⟩ := faithful_tick.iterate_steps hm hi hna
  obtain ⟨rfl, rfl⟩ | ⟨why, rfl, rfl⟩ := hend
  · obtain ⟨-, -, hq⟩ := tick_idle (hidle rfl)
    exact ⟨hes.snoc (.drain hr hq), hr, hmain, fun _ => hq⟩
  · simp only [List.append_nil]
    exact ⟨hes, hr, hmain, by simp⟩

theorem run_steps {out : Except Halt TaskId} (hr : m.sched.running = [])
    (hm : m.sched.MainOutermost) (h : run B fuel name body m = some (out, m'))
    (hna : ∀ cause, out ≠ .error (.aborted cause)) :
    m.sched.Steps (runEvents B fuel name body m) m'.sched ∧ m'.sched.running = [] := by
  have hstart := startMain_step B name body hr
  unfold runEvents
  rw [h]
  obtain ⟨ended, hd, rfl⟩ := run_eq_some h
  have hna' : ∀ cause, ended ≠ .error (.aborted cause) := by
    rintro cause rfl
    exact hna cause rfl
  obtain ⟨hes, hr', hmain, -⟩ := drain_steps (hm.step hstart) hd hna'
  have hes := (Scheduler.Steps.single hstart).trans hes
  refine ⟨?_, hr'⟩
  cases ended with
  | error why => simpa [Except.bind] using hes
  | ok u =>
    cases hs : (m'.sched.stateOf m.sched.nextId).isSettled with
    | true => simpa [Except.bind, conclude, hs] using hes.snoc (.return hr' hmain hs)
    | false => simpa [Except.bind, conclude, hs] using hes

/-- The calls of a host are steps, and no body runs after them. -/
theorem Calls.steps {m₀ : Machine β ν ω} {es : List (Event ν)} (h : Calls B m₀ es m)
    (hr₀ : m₀.sched.running = []) (hm₀ : m₀.sched.MainOutermost) :
    m₀.sched.Steps es m.sched ∧ m.sched.running = [] := by
  induction h with
  | none => exact ⟨.refl _, hr₀⟩
  | spawn _ hout hna ih =>
    obtain ⟨hes, hr⟩ := ih
    obtain ⟨hes', hr'⟩ := spawn_steps hr (hm₀.steps hes) hout hna
    exact ⟨hes.trans hes', hr'⟩
  | run _ hout hna ih =>
    obtain ⟨hes, hr⟩ := ih
    obtain ⟨hes', hr'⟩ := run_steps hr (hm₀.steps hes) hout hna
    exact ⟨hes.trans hes', hr'⟩
  | drain _ hout hna ih =>
    obtain ⟨hes, hr⟩ := ih
    obtain ⟨hes', hr', -, -⟩ := drain_steps (hm₀.steps hes) hout hna
    exact ⟨hes.trans hes', hr'⟩

variable {maxSteps : ℕ} {world : ω} {es : List (Event ν)}

theorem Calls.steps_fresh (h : Calls B ⟨.fresh maxSteps, world⟩ es m) :
    (Scheduler.fresh maxSteps).Steps es m.sched ∧ m.sched.running = [] :=
  h.steps rfl (Scheduler.mainOutermost_fresh maxSteps)

theorem Calls.mainOutermost (h : Calls B ⟨.fresh maxSteps, world⟩ es m) :
    m.sched.MainOutermost :=
  (Scheduler.mainOutermost_fresh maxSteps).steps h.steps_fresh.1

end Calls

/-! ## A small behaviour -/

/-- What a scripted body does next. -/
inductive Move where
  /-- it waits for its turn -/
  | pause
  /-- it waits for a task -/
  | join (id : TaskId)
  /-- it starts a task with moves of its own -/
  | start (name : String) (moves : List Move)

/-- Bodies that make their moves one after the other and then end. -/
def scripted : Behaviour (List Move) Unit Unit where
  act _ _
    | [] => (.finish (), ())
    | .pause :: rest => (.await (.value ()) rest, ())
    | .join id :: rest => (.await (.task id) rest, ())
    | .start name moves :: rest => (.spawn name moves fun _ => rest, ())
  resume moves _ := moves
  note _ world := world

/-- A main body that waits for a task which comes to wait for itself. -/
def selfWait : List Move :=
  [.start "loop" [.pause, .join ⟨1⟩], .join ⟨1⟩]

/-- The machine that is left when `selfWait` stalls. -/
def stalled : Machine (List Move) Unit Unit :=
  ⟨⟨#[⟨"main", .pending, [], true⟩, ⟨"loop", .pending, [⟨⟨0⟩, []⟩, ⟨⟨1⟩, []⟩], true⟩], [], [],
    some ⟨0⟩, 1, 10, [], []⟩, ()⟩

theorem run_selfWait : run scripted 9 "main" selfWait ⟨.fresh 10, ()⟩ =
    some (.error (.fault ⟨.stalled, none, some "#1 main"⟩), stalled) := rfl

end Machine

end CoScript
