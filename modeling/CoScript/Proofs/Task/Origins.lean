import CoScript.Proofs.Task.Deliveries

/-!
# Where a failure comes from

A failure that a body lets out ends its task, and every body that waits for the task gets it. If
such a body lets it out in turn, it ends the next task, and so on. On the way a thrown value keeps
the place where it was thrown, and a fault keeps the label of the first task, whether the bodies
began to wait before that task ended or after.

Results:
* `Relays`: a task waits for another one and lets its failure out.
* `Machine.Course.ends`: what becomes of a failure that a body lets out.
* `Machine.Course.origins`: the failures along a chain of tasks are that of the first one.
-/

namespace CoScript

section History

variable {ν : Type} [Inhabited ν]

/-- A body of the task `b` waited for the task `a`, and lets out what it got. -/
def Relays (ds : List (Deed ν)) (a b : TaskId) : Prop :=
  ∃ before d mid d' after w x, ds = before ++ d :: (mid ++ d' :: after) ∧
    latest (events before) b = some w ∧ w.awaited = .task a ∧ d.event = .resumed b x ∧
    d'.letOut = some (b, x)

omit [Inhabited ν] in
/-- A task ends with a failure that its body lets out. -/
def EndsWith (ds : List (Deed ν)) (id : TaskId) (x : Delivery ν) : Prop :=
  ∃ d ∈ ds, (∃ state, d.event = .settled id state) ∧ d.letOut = some (id, x)

end History

namespace Scheduler

variable {β ν : Type} {s s' : Scheduler β ν} {es : List (Event ν)} {e : Event ν} {id x : TaskId}

/-! ## Labels -/

/-- A change of a task that leaves its name alone leaves all names as they were. -/
theorem nameOf_modify (s : Scheduler β ν) (id : TaskId) (f : Task β ν → Task β ν)
    (hf : ∀ t, (f t).name = t.name) (x : TaskId) : (s.modify id f).nameOf x = s.nameOf x := by
  simp only [nameOf, modify, Array.getElem?_modify]
  by_cases hx : id.index = x.index <;> cases s.tasks[x.index]? <;> simp [hx, hf]

theorem nameOf_start (name : String) (body : β) (observed : Bool) (hx : x.index < s.tasks.size) :
    (s.start name body observed).nameOf x = s.nameOf x := by
  simp [nameOf, Array.getElem?_push_lt hx, Array.getElem?_eq_getElem hx]

theorem nameOf_settle (s : Scheduler β ν) (id : TaskId) (state : TaskState ν) (x : TaskId) :
    (s.settle id state).nameOf x = s.nameOf x := by
  unfold settle
  split
  · rfl
  · exact nameOf_modify s id (fun t => { t with state, waiters := [] }) (fun _ => rfl) x

theorem nameOf_suspend [Inhabited ν] (s : Scheduler β ν) (p : Parked β)
    (a : Awaited ν) (x : TaskId) :
    (s.suspend p a).1.nameOf x = s.nameOf x := by
  obtain ⟨v, h⟩ | ⟨id, t, -, -, -, h⟩ | ⟨id, t, -, -, -, h⟩ := s.suspend_cases p a
  · rw [h]; rfl
  · rw [h]
    exact nameOf_modify s id (fun t => { t with observed := true }) (fun _ => rfl) x
  · rw [h]
    exact nameOf_modify s id (fun t => { t with observed := true, waiters := t.waiters ++ [p] })
      (fun _ => rfl) x

/-- A task keeps its label. -/
theorem Step.labelOf_eq [Inhabited ν] (h : Step s e s') (hx : x.index < s.tasks.size) :
    s'.labelOf x = s.labelOf x := by
  refine congrArg x.label ?_
  cases h with
  | spawn name body hr => exact nameOf_start name body false hx
  | run name body hr => exact nameOf_start name body true hx
  | @child id body outer name child parent hr =>
    exact nameOf_start (s := { s with running := ⟨id, parent⟩ :: outer }) name child false hx
  | await what body' hr => rw [nameOf_suspend]; rfl
  | settle state hr hs hm => rw [nameOf_settle]; rfl
  | _ => rfl

/-! ## Main tasks that fail -/

/-- The main tasks that failed are among those that run no more. -/
theorem lasting_recorded [Inhabited ν] : Lasting fun es (s : Scheduler β ν) =>
    (∃ failed, s.Accounted failed ∧ failedMains es ⊆ failed) ∧ s.Recorded es where
  step {es e s s'} h hstep := by
    obtain ⟨⟨failed, hacc, hfailed⟩, h⟩ := h
    refine ⟨⟨_, hacc.step hstep, ?_⟩, h.step hacc hfailed hstep⟩
    rw [failedMains_append]
    exact List.append_subset.mpr ⟨fun id hid => List.mem_append_left _ (hfailed hid),
      List.subset_append_right ..⟩
  dropped {es s} h := by
    obtain ⟨⟨failed, hacc, hfailed⟩, h⟩ := h
    have hsame : failedMains (es ++ [.aborted]) = failedMains es := by
      rw [failedMains_append]
      exact List.append_nil _
    have hstarted : ∀ id isMain, .started id isMain ∈ es ++ [.aborted] ↔
      .started id isMain ∈ es := by
      simp
    refine ⟨⟨_, hacc.dropped, ?_⟩, ?_, ?_, ?_, ?_, ?_, ?_, ?_⟩
    · rw [hsame]
      exact fun id hid => List.mem_append_left _ (hfailed hid)
    · simp only [hstarted]
      exact h.started_lt
    · simp only [hstarted]
      exact h.started_unique
    · simp only [hstarted]
      exact h.main_started
    · rw [hsame]
      simp only [hstarted]
      exact h.failed_started
    · rw [hsame]
      exact h.failed_pending
    · intro id hid
      exact h.returned_settled id (by simpa using hid)
    · exact fun a b hab => List.mem_append_left _ (h.waiting a b hab)

/-! ## What becomes of a failure -/

/-- What becomes of a failure that a body of a task lets out: its task ends with it, and a fault has
    then the label of a task; or it is the fault of the main task. -/
def Ends (s : Scheduler β ν) (id : TaskId) : Delivery ν → Event ν → Prop
  | .value _, _ => False
  | .thrown v pos, e => e = .settled id (.thrown v pos)
  | .failed f, e => e = .settled id (.failed (f.inTask (s.labelOf id))) ∨ e = .mainFailed id f

end Scheduler

namespace Machine

variable {β ν ω : Type} [Inhabited ν] {B : Behaviour β ν ω} {m m' : Machine β ν ω}
  {ds : List (Deed ν)} {maxSteps : ℕ} {world : ω} {id : TaskId} {x : Delivery ν}

/-- A failure that is let out ends a running task. -/
theorem ends_of_letOut (h : m.letOut B = some (id, x)) :
    (∃ p ∈ m.sched.running, p.id = id) ∧ m.sched.Ends id x (m.event B) := by
  unfold letOut at h
  unfold event
  cases hr : m.sched.running with
  | nil => simp [hr] at h
  | cons p outer =>
    simp only [hr] at h ⊢
    cases ha : (B.act m.world m.sched.tasks p.body).1 with
    | throw v pos =>
      simp only [ha, Option.some.injEq, Prod.mk.injEq] at h ⊢
      obtain ⟨rfl, rfl⟩ := h
      exact ⟨⟨p, List.mem_cons_self .., rfl⟩, rfl⟩
    | fail f =>
      simp only [ha, Option.some.injEq, Prod.mk.injEq] at h ⊢
      obtain ⟨rfl, rfl⟩ := h
      refine ⟨⟨p, List.mem_cons_self .., rfl⟩, ?_⟩
      split
      · exact .inr rfl
      · exact .inl rfl
    | _ => simp [ha] at h

omit [Inhabited ν] in
/-- What becomes of a failure does not depend on what happens later. -/
theorem ends_mono {d : Deed ν} {s : Scheduler β ν}
    (h : id.index < m.sched.tasks.size ∧ m.sched.Ends id x d.event)
    (hlabel : id.index < m.sched.tasks.size → s.labelOf id = m.sched.labelOf id)
    (hsize : m.sched.tasks.size ≤ s.tasks.size) :
    id.index < s.tasks.size ∧ s.Ends id x d.event := by
  refine ⟨Nat.lt_of_lt_of_le h.1 hsize, ?_⟩
  cases x with
  | value v => exact h.2
  | thrown v pos => exact h.2
  | failed f =>
    rw [Scheduler.Ends, hlabel h.1]
    exact h.2

/-- A failure that a body lets out ends its task or the run. -/
theorem Course.ends (h : Course B ⟨.fresh maxSteps, world⟩ ds m) :
    ∀ d ∈ ds, ∀ id x, d.letOut = some (id, x) →
      id.index < m.sched.tasks.size ∧ m.sched.Ends id x d.event := by
  have step {ds : List (Deed ν)} {m : Machine β ν ω} {s : Scheduler β ν} {d : Deed ν}
      (ih : ∀ d ∈ ds, ∀ id x, d.letOut = some (id, x) →
        id.index < m.sched.tasks.size ∧ m.sched.Ends id x d.event)
      (hd : ∀ id x, d.letOut = some (id, x) →
        id.index < m.sched.tasks.size ∧ m.sched.Ends id x d.event)
      (hlabel : ∀ id : TaskId, id.index < m.sched.tasks.size → s.labelOf id = m.sched.labelOf id)
      (hsize : m.sched.tasks.size ≤ s.tasks.size) :
      ∀ d' ∈ ds ++ [d], ∀ id x, d'.letOut = some (id, x) →
        id.index < s.tasks.size ∧ s.Ends id x d'.event := by
    intro d' hd' id x hx
    obtain hd' | hd' := List.mem_append.mp hd'
    · exact ends_mono (ih d' hd' id x hx) (hlabel id) hsize
    · obtain rfl := List.mem_singleton.mp hd'
      exact ends_mono (hd id x hx) (hlabel id) hsize
  have own {ds : List (Deed ν)} {m : Machine β ν ω} (h : Course B ⟨.fresh maxSteps, world⟩ ds m)
      (id : TaskId) (x : Delivery ν) (hx : (m.deed B).letOut = some (id, x)) :
      id.index < m.sched.tasks.size ∧ m.sched.Ends id x (m.deed B).event := by
    obtain ⟨⟨p, hp, rfl⟩, hends⟩ := ends_of_letOut hx
    obtain ⟨⟨failed, hacc⟩, -⟩ := h.lasting_fresh Scheduler.lasting_delivers
      ⟨⟨[], Scheduler.accounted_fresh maxSteps⟩, Scheduler.delivers_fresh maxSteps⟩
    exact ⟨Scheduler.lt_of_isPending (hacc.of_running hp).1, hends⟩
  induction h with
  | refl => simp
  | spawn name body _ hr ih =>
    have hstep := start_step B name body hr
    exact step ih (by simp) (fun _ => hstep.labelOf_eq) hstep.size_le
  | run name body _ hr ih =>
    have hstep := startMain_step B name body hr
    exact step ih (by simp) (fun _ => hstep.labelOf_eq) hstep.size_le
  | next h hmove ih =>
    have hstep := tick_next hmove
    exact step ih (own h) (fun _ => hstep.labelOf_eq) hstep.size_le
  | @halted ds m m' why h hmove ih =>
    cases why with
    | fault f =>
      have hm := (h.lasting (I := fun _ _ => True) ⟨fun _ _ => trivial, fun _ => trivial⟩ trivial
        (Scheduler.mainOutermost_fresh maxSteps)).2
      have hstep := (faithful_tick.halted hmove hm).1
      exact step ih (own h) (fun _ => hstep.labelOf_eq) hstep.size_le
    | aborted =>
      obtain ⟨-, hsched⟩ := tick_aborted hmove
      have hlabel (id : TaskId) : m'.sched.labelOf id = m.sched.labelOf id := by
        rw [hsched]
        rfl
      exact step ih (own h) (fun id _ => hlabel id) (by rw [hsched])
  | drained _ _ ih => exact step ih (by simp) (fun _ _ => rfl) (Nat.le_refl _)
  | returned _ _ _ _ ih => exact step ih (by simp) (fun _ _ => rfl) (Nat.le_refl _)

/-! ## Chains of tasks -/

section Chains

variable {a b : TaskId}

/-- What a task relays is the outcome of the task that it waited for. -/
theorem Course.relays (h : Course B ⟨.fresh maxSteps, world⟩ ds m) (hab : Relays ds a b) :
    ∃ state, m.sched.stateOf a = state ∧ state.isSettled = true ∧
      ∃ e ∈ events ds, m.sched.Ends b state.outcome e := by
  obtain ⟨before, d, mid, d', after, w, x, rfl, hw, hwait, hevent, hout⟩ := hab
  have hdelivers := h.delivers
  have hgets : Throughout Faithfully _ := hdelivers.gets
  rw [events_append, events_cons] at hgets
  obtain ⟨w', hw', hx⟩ := hgets _ _ _ rfl b x hevent
  obtain rfl := Option.some.inj (hw.symm.trans hw')
  rw [hwait] at hx
  cases hx with
  | @task _ state hstate =>
    have hmem : .settled a state ∈ events (before ++ d :: (mid ++ d' :: after)) := by
      rw [events_append]
      exact List.mem_append_left _ hstate
    obtain ⟨hsettled, hstate⟩ := (hdelivers.settled_iff a state).mp hmem
    have hd' : d' ∈ before ++ d :: (mid ++ d' :: after) := by simp
    exact ⟨state, hstate, hsettled, _, List.mem_map_of_mem hd', (h.ends d' hd' b _ hout).2⟩

/-- A task that relays a failure goes on with the body that its wait for the other task left behind,
    and lets out later what that body was resumed with. -/
theorem Course.relays_body (h : Course B ⟨.fresh maxSteps, world⟩ ds m) (hab : Relays ds a b) :
    ∃ before mid w x m₁ m₂, w.task = b ∧ w.awaited = .task a ∧
      GoesOn B ⟨.fresh maxSteps, world⟩ before w x m₁ ∧ Course B m₁ mid m₂ ∧
      m₂.letOut B = some (b, x) := by
  obtain ⟨before, d, mid, d', after, w, x, rfl, hw, hwait, hevent, hout⟩ := hab
  obtain ⟨w', m₁, hw', hgoes, hrest⟩ := h.goes_on hevent
  obtain rfl := Option.some.inj (hw.symm.trans hw')
  obtain ⟨m₂, hmid, hrest⟩ := hrest.split
  obtain ⟨m₃, hlast, -⟩ := hrest.uncons
  obtain ⟨rfl, -⟩ := hlast.move (.inr (by simp [hout]))
  exact ⟨before, mid, w, x, m₁, m₂, latest_task hw, hwait, hgoes, hmid, hout⟩

/-- A thrown value that a task relays ends it as it ended the task before. -/
theorem Course.relays_thrown (h : Course B ⟨.fresh maxSteps, world⟩ ds m) (hab : Relays ds a b)
    {v : ν} {pos : Option Position} (ha : m.sched.stateOf a = .thrown v pos) :
    m.sched.stateOf b = .thrown v pos := by
  obtain ⟨state, hstate, -, e, he, hends⟩ := h.relays hab
  obtain rfl : state = .thrown v pos := hstate.symm.trans ha
  obtain rfl : e = .settled b (.thrown v pos) := hends
  exact ((h.delivers.settled_iff b _).mp he).2

/-- A fault that a task relays keeps the label that it has. -/
theorem Course.relays_failed (h : Course B ⟨.fresh maxSteps, world⟩ ds m) (hab : Relays ds a b)
    {f : Fault} {label : String} (hlabel : f.task = some label)
    (ha : m.sched.stateOf a = .failed f) :
    m.sched.stateOf b = .failed f ∨ .mainFailed b f ∈ events ds := by
  obtain ⟨state, hstate, -, e, he, hends⟩ := h.relays hab
  obtain rfl : state = .failed f := hstate.symm.trans ha
  have hkeep (label : String) : f.inTask label = f := by
    cases f
    simp_all [Fault.inTask]
  obtain rfl | rfl :
      e = .settled b (.failed (f.inTask (m.sched.labelOf b))) ∨ e = .mainFailed b f :=
    hends
  · rw [hkeep] at he
    exact .inl ((h.delivers.settled_iff b _).mp he).2
  · exact .inr he

theorem Course.recorded (h : Course B ⟨.fresh maxSteps, world⟩ ds m) :
    m.sched.Recorded (events ds) :=
  (h.lasting_fresh Scheduler.lasting_recorded
    ⟨⟨[], Scheduler.accounted_fresh maxSteps, List.Subset.refl _⟩,
      Scheduler.recorded_fresh maxSteps⟩).2

/-- No task gets anything from a main task that failed. -/
theorem Course.not_relays (h : Course B ⟨.fresh maxSteps, world⟩ ds m) {f : Fault}
    (hf : .mainFailed a f ∈ events ds) : ¬ Relays ds a b := by
  intro hab
  obtain ⟨state, hstate, hsettled, -⟩ := h.relays hab
  have hpending := h.recorded.failed_pending a (Scheduler.mem_failedMains.mpr ⟨f, hf⟩)
  obtain ⟨t, ht⟩ : ∃ t, m.sched.tasks[a.index]? = some t :=
    ⟨_, Array.getElem?_eq_getElem (Scheduler.lt_of_isPending hpending)⟩
  rw [Scheduler.isPending_eq ht, ← Scheduler.isSettled_stateOf ht, hstate, hsettled] at hpending
  cases hpending

variable {t₀ : TaskId} {ts : List TaskId}

/-- A thrown value goes along a chain of tasks as it is. -/
theorem Course.chain_thrown (h : Course B ⟨.fresh maxSteps, world⟩ ds m)
    (hchain : List.IsChain (Relays ds) (t₀ :: ts)) {v : ν} {pos : Option Position}
    (h₀ : m.sched.stateOf t₀ = .thrown v pos) : ∀ t ∈ ts, m.sched.stateOf t = .thrown v pos := by
  induction ts generalizing t₀ with
  | nil => simp
  | cons t ts ih =>
    obtain ⟨hlink, hrest⟩ := List.isChain_cons_cons.mp hchain
    have ht := h.relays_thrown hlink h₀
    exact List.forall_mem_cons.mpr ⟨ht, ih hrest ht⟩

/-- A fault with a label goes along a chain of tasks as it is, at most up to a main task. -/
theorem Course.chain_failed (h : Course B ⟨.fresh maxSteps, world⟩ ds m)
    (hchain : List.IsChain (Relays ds) (t₀ :: ts)) {f : Fault} {label : String}
    (hlabel : f.task = some label)
    (h₀ : m.sched.stateOf t₀ = .failed f ∨ .mainFailed t₀ f ∈ events ds) :
    ∀ t ∈ ts, m.sched.stateOf t = .failed f ∨ .mainFailed t f ∈ events ds := by
  induction ts generalizing t₀ with
  | nil => simp
  | cons t ts ih =>
    obtain ⟨hlink, hrest⟩ := List.isChain_cons_cons.mp hchain
    have ht := h.relays_failed hlink hlabel (h₀.resolve_right fun hf => h.not_relays hf hlink)
    exact List.forall_mem_cons.mpr ⟨ht, ih hrest ht⟩

/-- A task that ends with a fault of its own gives it its label. -/
theorem Course.stateOf_origin (h : Course B ⟨.fresh maxSteps, world⟩ ds m) {f : Fault}
    (h₀ : EndsWith ds t₀ (.failed f)) (hf : f.task = none) :
    m.sched.stateOf t₀ = .failed ⟨f.cause, f.pos, some (m.sched.labelOf t₀)⟩ := by
  obtain ⟨d, hd, ⟨state, hstate⟩, hout⟩ := h₀
  have hends : m.sched.Ends t₀ (.failed f) d.event := (h.ends d hd t₀ _ hout).2
  have hlabel (label : String) : f.inTask label = ⟨f.cause, f.pos, some label⟩ := by
    rw [Fault.inTask, hf]
    rfl
  have hevent : d.event = .settled t₀ (.failed (f.inTask (m.sched.labelOf t₀))) := by
    refine hends.resolve_right fun hmain => ?_
    cases hstate.symm.trans hmain
  rw [hlabel] at hevent
  exact ((h.delivers.settled_iff t₀ _).mp (hevent ▸ List.mem_map_of_mem hd)).2

/-- A fault goes along a chain of tasks with the label of the first task. -/
theorem Course.chain_origin (h : Course B ⟨.fresh maxSteps, world⟩ ds m)
    (hchain : List.IsChain (Relays ds) (t₀ :: ts)) {f : Fault} (h₀ : EndsWith ds t₀ (.failed f))
    (hf : f.task = none) : ∀ t ∈ ts,
      m.sched.stateOf t = .failed ⟨f.cause, f.pos, some (m.sched.labelOf t₀)⟩ ∨
        .mainFailed t ⟨f.cause, f.pos, some (m.sched.labelOf t₀)⟩ ∈ events ds :=
  h.chain_failed hchain rfl (.inl (h.stateOf_origin h₀ hf))

end Chains

/-! ## The fault of a main task -/

section Main

variable {f : Fault} {fuel : ℕ}

/-- What halts a run with a fault of the main task is this fault. -/
theorem halted_of_mainFailed {why : Halt} (hmove : tick B m = .halted why m')
    (hevent : m.event B = .mainFailed id f) : why = .fault f := by
  obtain ⟨s, w⟩ := m
  simp only [event] at hevent
  cases hr : s.running with
  | nil =>
    simp only [hr] at hevent
    split at hevent
    · cases hevent
    · split at hevent <;> cases hevent
  | cons p outer =>
    simp only [hr] at hevent
    cases ha : (B.act w s.tasks p.body).1 with
    | fail g =>
      simp only [ha] at hevent
      split at hevent
      · rename_i hmain
        obtain ⟨-, rfl⟩ := Event.mainFailed.inj hevent
        simp only [tick, hr, List.isEmpty_cons, Bool.false_eq_true, if_false, act,
          ha, perform, hmain,
          if_true, Progress.halted.injEq] at hmove
        exact hmove.1.symm
      · cases hevent
    | _ => simp [ha] at hevent

/-- A run that the fault of a main task ends is over at once. -/
theorem iterate_of_mainFailed (h : .mainFailed id f ∈ trace B (tick B) fuel m) :
    ∃ m', iterate (tick B) fuel m = some (.error (.fault f), m') := by
  induction fuel generalizing m with
  | zero => cases h
  | succ fuel ih =>
    unfold trace at h
    unfold iterate
    cases hmove : tick B m with
    | next m₁ =>
      simp only [hmove, List.mem_cons] at h ⊢
      obtain hevent | h := h
      · -- a move that goes on is no such fault
        have hnone := (faithful_tick.next hmove).2
        rw [← hevent] at hnone
        cases hnone
      · exact ih h
    | idle m₁ => simp [hmove] at h
    | halted why m₁ =>
      simp only [hmove, List.mem_singleton] at h ⊢
      exact ⟨m₁, by rw [halted_of_mainFailed hmove h.symm]⟩

/-- The main task does not keep its fault. -/
theorem failed_notMem_trace (hmain : m.sched.main = some id) :
    .settled id (.failed f) ∉ trace B (tick B) fuel m := by
  have hevent {m : Machine β ν ω} (hmain : m.sched.main = some id) :
      .settled id (.failed f) ≠ m.event B := by
    unfold event
    cases m.sched.running with
    | nil =>
      cases m.sched.next? with
      | none => simp
      | some r => dsimp only; split <;> simp
    | cons p outer =>
      dsimp only
      cases (B.act m.world m.sched.tasks p.body).1 with
      | fail g =>
        dsimp only
        split
        · simp
        · rename_i hother
          intro heq
          exact hother ((Event.settled.inj heq).1 ▸ hmain)
      | _ => simp
  induction fuel generalizing m with
  | zero => exact List.not_mem_nil
  | succ fuel ih =>
    unfold trace
    cases hmove : tick B m with
    | next m₁ =>
      have hmain₁ := ((tick_next hmove).main_eq (event_ne_started _)).trans hmain
      rw [List.mem_cons, not_or]
      exact ⟨hevent hmain, ih hmain₁⟩
    | idle m₁ => exact List.not_mem_nil
    | halted why m₁ => simpa using hevent hmain

/-- A fault that comes to the main task of a run along a chain of tasks ends the run. -/
theorem Course.run_origin (h : Course B ⟨.fresh maxSteps, world⟩ ds m) {name : String} {body : β}
    (hr : m.sched.running = []) {ds' : List (Deed ν)}
    (hds' : ds' = ds ++ ⟨.started m.sched.nextId true, none⟩ ::
      deeds B (tick B) fuel (startMain B name body m))
    {t₀ : TaskId} {ts : List TaskId}
    (hchain : List.IsChain (Relays ds') (t₀ :: (ts ++ [m.sched.nextId])))
    (h₀ : EndsWith ds' t₀ (.failed f)) (hf : f.task = none) :
    ∃ m', Machine.run B fuel name body m =
      some (.error (.fault ⟨f.cause, f.pos, some (m'.sched.labelOf t₀)⟩), m') := by
  obtain ⟨m', h', hend⟩ := (h.run name body hr).moves ticks_tick faithful_tick fuel
  rw [List.append_assoc] at h'
  subst hds'
  generalize hg : (⟨f.cause, f.pos, some (m'.sched.labelOf t₀)⟩ : Fault) = g
  have hevents : events (ds ++ ⟨.started m.sched.nextId true, none⟩ ::
      deeds B (tick B) fuel (startMain B name body m)) = events ds ++
        .started m.sched.nextId true :: trace B (tick B) fuel (startMain B name body m) := by
    rw [events_append, events_cons, events_deeds]
  have hfailed : .mainFailed m.sched.nextId g ∈ trace B (tick B) fuel
    (startMain B name body m) := by
    obtain hstate | hmem := h'.chain_origin hchain h₀ hf m.sched.nextId (by simp)
    · -- the main task of the run does not end with a fault, neither before the run nor in it
      have hmem := (h'.delivers.settled_iff _ _).mpr ⟨rfl, hstate⟩
      rw [List.singleton_append, hevents, hg, List.mem_append, List.mem_cons] at hmem
      obtain hmem | hmem | hmem := hmem
      · have hpending : m.sched.stateOf m.sched.nextId = .pending := by
          simp [Scheduler.stateOf, Scheduler.nextId]
        rw [((h.delivers.settled_iff _ _).mp hmem).2] at hpending
        cases hpending
      · cases hmem
      · exact absurd hmem (failed_notMem_trace rfl)
    · rw [List.singleton_append, hevents, hg, List.mem_append, List.mem_cons] at hmem
      obtain hmem | hmem | hmem := hmem
      · -- the main task of the run does not exist before
        have hold := h.recorded.failed_started _ (Scheduler.mem_failedMains.mpr ⟨_, hmem⟩)
        have hlt := h.recorded.started_lt _ _ hold
        simp [Scheduler.nextId] at hlt
      · cases hmem
      · exact hmem
  obtain ⟨m'', hi⟩ := iterate_of_mainFailed hfailed
  obtain rfl := hend _ _ hi
  exact ⟨m'', by simp [Machine.run, drain, hi, hg]⟩

end Main

/-- At every moment of every course of a fresh machine, whatever its bodies do: along a chain of
    tasks, each of which waited for the one before and let its failure out, a value that the first
    task threw rejects them all at the place of that throw. A fault of its own gets the label of the
    first task and rejects them all with this label; only a main task may be left, whose run it
    ends. So a run whose main task is the last of such a chain ends with this fault. At each link of
    such a chain the machine ran on with the body that the wait had left behind, resumed with the
    failure that it then let out. -/
theorem Course.origins (h : Course B ⟨.fresh maxSteps, world⟩ ds m) :
    (∀ a b, Relays ds a b → ∃ before mid w x m₁ m₂, w.task = b ∧ w.awaited = .task a ∧
      GoesOn B ⟨.fresh maxSteps, world⟩ before w x m₁ ∧ Course B m₁ mid m₂ ∧
      m₂.letOut B = some (b, x)) ∧
    (∀ t₀ ts, List.IsChain (Relays ds) (t₀ :: ts) → ∀ v pos, m.sched.stateOf t₀ = .thrown v pos →
      ∀ t ∈ ts, m.sched.stateOf t = .thrown v pos) ∧
    (∀ t₀ ts, List.IsChain (Relays ds) (t₀ :: ts) → ∀ f,
      EndsWith ds t₀ (.failed f) → f.task = none →
      let g : Fault := ⟨f.cause, f.pos, some (m.sched.labelOf t₀)⟩
      m.sched.stateOf t₀ = .failed g ∧
        ∀ t ∈ ts, m.sched.stateOf t = .failed g ∨
          .started t true ∈ events ds ∧ .mainFailed t g ∈ events ds) ∧
    ∀ fuel name body, m.sched.running = [] →
      let ds' := ds ++ ⟨.started m.sched.nextId true, none⟩ ::
        deeds B (tick B) fuel (startMain B name body m)
      ∀ t₀ ts, List.IsChain (Relays ds') (t₀ :: (ts ++ [m.sched.nextId])) →
        ∀ f, EndsWith ds' t₀ (.failed f) → f.task = none →
          ∃ m', Machine.run B fuel name body m =
            some (.error (.fault ⟨f.cause, f.pos, some (m'.sched.labelOf t₀)⟩), m') := by
  refine ⟨fun a b => h.relays_body, fun t₀ ts hchain v pos => h.chain_thrown hchain,
    fun t₀ ts hchain f h₀ hf => ?_,
    fun fuel name body hr t₀ ts hchain f => h.run_origin hr rfl hchain⟩
  refine ⟨h.stateOf_origin h₀ hf, fun t ht => ?_⟩
  refine (h.chain_origin hchain h₀ hf t ht).imp_right fun hmain => ⟨?_, hmain⟩
  exact h.recorded.failed_started t (Scheduler.mem_failedMains.mpr ⟨_, hmain⟩)

/-! ## Bodies that relay faults -/

/-- A scripted body, and the fault that it got. -/
structure Relay where
  moves : List Move
  got : Option Fault

/-- Bodies that make their moves one after the other and then fail, and let out each fault that they
    get. -/
def relaying : Behaviour Relay Unit Unit where
  act world _
    | ⟨_, some f⟩ => (.fail f, world)
    | ⟨[], none⟩ => (.fail (.nowhere .superOutside), world)
    | ⟨.pause :: rest, none⟩ => (.await (.value ()) ⟨rest, none⟩, world)
    | ⟨.join id :: rest, none⟩ => (.await (.task id) ⟨rest, none⟩, world)
    | ⟨.start name moves :: rest, none⟩ => (.spawn name ⟨moves, none⟩ fun _ => ⟨rest, none⟩, world)
  resume body
    | .failed f => ⟨body.moves, some f⟩
    | _ => body
  note _ world := world

/-- A main body that waits for a task which waits for another one, and that one fails. -/
def relayed : Relay :=
  ⟨[.start "source" [.pause], .start "middle" [.join ⟨1⟩], .join ⟨2⟩], none⟩

/-- The fault of the first task in a run of `relayed`. -/
def sourceFault : Fault :=
  ⟨.superOutside, none, some "#2 source"⟩

/-- What happens in a run of `relayed`. -/
def relayedDeeds : List (Deed Unit) := [
  ⟨.started ⟨0⟩ true, none⟩, ⟨.started ⟨1⟩ false, none⟩, ⟨.awaited ⟨1⟩ (.value ()), none⟩,
  ⟨.started ⟨2⟩ false, none⟩, ⟨.awaited ⟨2⟩ (.task ⟨1⟩), none⟩, ⟨.awaited ⟨0⟩ (.task ⟨2⟩), none⟩,
  ⟨.resumed ⟨1⟩ (.value ()), none⟩,
  ⟨.settled ⟨1⟩ (.failed sourceFault), some (⟨1⟩, .failed (.nowhere .superOutside))⟩,
  ⟨.resumed ⟨2⟩ (.failed sourceFault), none⟩,
  ⟨.settled ⟨2⟩ (.failed sourceFault), some (⟨2⟩, .failed sourceFault)⟩,
  ⟨.resumed ⟨0⟩ (.failed sourceFault), none⟩,
  ⟨.mainFailed ⟨0⟩ sourceFault, some (⟨0⟩, .failed sourceFault)⟩]

theorem deeds_relayed : ⟨.started ⟨0⟩ true, none⟩ ::
    deeds relaying (tick relaying) 20 (startMain relaying "main" relayed ⟨.fresh 10, ()⟩) =
      relayedDeeds := rfl

theorem chain_relayed : List.IsChain (Relays relayedDeeds) [⟨1⟩, ⟨2⟩, ⟨0⟩] := by
  refine .cons_cons ?_ (.cons_cons ?_ (.singleton _))
  · exact ⟨relayedDeeds.take 8, _, [], _, relayedDeeds.drop 10,
      ⟨4, ⟨2⟩, .task ⟨1⟩⟩, _, rfl, rfl, rfl,
      rfl, rfl⟩
  · exact ⟨relayedDeeds.take 10, _, [], _, [], ⟨5, ⟨0⟩, .task ⟨2⟩⟩, _, rfl, rfl, rfl, rfl, rfl⟩

/-- The run of `relayed` ends with the fault of the first task. -/
theorem origins_relayed : ∃ m', Machine.run relaying 20 "main" relayed ⟨.fresh 10, ()⟩ =
    some (.error (.fault ⟨.superOutside, none, some (m'.sched.labelOf ⟨1⟩)⟩), m') := by
  have h₀ : EndsWith relayedDeeds ⟨1⟩ (.failed (.nowhere .superOutside)) :=
    ⟨relayedDeeds[7], by simp [relayedDeeds], ⟨_, rfl⟩, rfl⟩
  have h : Course relaying ⟨.fresh 10, ()⟩ [] ⟨.fresh 10, ()⟩ := .refl
  exact h.origins.2.2.2 20 "main" relayed rfl ⟨1⟩ [⟨2⟩] (deeds_relayed ▸ chain_relayed) _
    (deeds_relayed ▸ h₀) rfl

end Machine

end CoScript
