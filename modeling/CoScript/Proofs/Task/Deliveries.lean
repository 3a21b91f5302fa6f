import CoScript.Proofs.Task.Continuations

/-!
# What bodies that wait get, and when

The queue holds the waits that have come to an end and that no body has gone on from, and each
pending task holds those for it. So bodies go on in the order in which their waits come to an end,
each of them once, and what they get is not touched by what happens in between.

Results:
* `Scheduler.Delivers`: the queue and the waiters agree with the history; a move keeps this.
* `Machine.Course.deliveries`: bodies go on in turn, at most once from each wait, with what they
  waited for, and after a drain that ends normally none is left out. What goes on is the body that
  the wait left behind.
-/

namespace CoScript

namespace Scheduler

variable {β ν : Type} [Inhabited ν] {s s' : Scheduler β ν}

/-! ## The queue and the waiters agree with the history -/

/-- What the history says of waits and ends agrees with the scheduler: the queue holds the waits
    that have come to an end and that no body has gone on from, and each pending task holds those
    for it. -/
structure Delivers (es : List (Event ν)) (s : Scheduler β ν) : Prop where
  started_iff : ∀ id, hasStarted es id = true ↔ id.index < s.tasks.size
  settled_iff : ∀ id state, .settled id state ∈ es ↔ state.isSettled = true ∧ s.stateOf id = state
  waiters : ∀ (id : TaskId) t, s.tasks[id.index]? = some t → t.state.isSettled = false →
    t.waiters.map (·.id) = ((suspensions es).filter (·.isFor id)).map (·.task)
  queue : ∃ q, readied es = resumed es ++ q ∧
    s.ready.map (fun r => (r.parked.id, r.awaited)) = q.map fun w => (w.task, w.awaited)
  readied_iff : ∀ w, w ∈ readied es ↔ w ∈ suspensions es ∧ w.awaited.isOpen es = false
  nodup : (readied es).Nodup
  last : ∀ w ∈ suspensions es, w ∉ resumed es → latest es w.task = some w
  gets : Throughout Faithfully es

theorem delivers_fresh (maxSteps : ℕ) : Delivers [] (fresh maxSteps : Scheduler β ν) where
  started_iff := by simp [hasStarted, fresh]
  settled_iff id state := by
    have hpending : (fresh maxSteps : Scheduler β ν).stateOf id = .pending := by
      simp [fresh, stateOf]
    rw [hpending]
    constructor
    · intro h
      cases h
    · rintro ⟨hs, rfl⟩
      cases hs
  waiters := by simp [fresh]
  queue := ⟨[], rfl, rfl⟩
  readied_iff w := mem_readied_iff
  nodup := List.nodup_nil
  last w hw := by cases hw
  gets before e after h := by simp at h

variable {es : List (Event ν)} {e : Event ν}

/-- Only the tasks and the queue count. -/
theorem Delivers.same (h : Delivers es s) (htasks : s'.tasks = s.tasks)
    (hready : s'.ready = s.ready) : Delivers es s' := by
  have hstate : ∀ id, s'.stateOf id = s.stateOf id := fun id => by simp [stateOf, htasks]
  refine ⟨?_, ?_, ?_, ?_, fun w => mem_readied_iff, h.nodup, h.last, h.gets⟩
  · rw [htasks]
    exact h.started_iff
  · simp only [hstate]
    exact h.settled_iff
  · rw [htasks]
    exact h.waiters
  · rw [hready]
    exact h.queue

/-- A task has ended just if the history says so. -/
theorem Delivers.ended_iff (h : Delivers es s) (id : TaskId) :
    hasEnded es id = true ↔ (s.stateOf id).isSettled = true := by
  rw [hasEnded_iff]
  constructor
  · rintro ⟨state, hs⟩
    obtain ⟨hsettled, rfl⟩ := (h.settled_iff id state).mp hs
    exact hsettled
  · exact fun hs => ⟨_, (h.settled_iff id _).mpr ⟨hs, rfl⟩⟩

/-- A task whose wait is not over stands somewhere. -/
theorem Delivers.task_mem_standing (h : Delivers es s) {w : Suspension ν} (hw : w ∈ suspensions es)
    (hnot : w ∉ resumed es) : w.task ∈ s.standing := by
  rw [standing, List.mem_append]
  cases hopen : w.awaited.isOpen es with
  | false =>
    -- the wait has come to its end, so its body is in the queue
    obtain ⟨q, hq, hready⟩ := h.queue
    have hmem := (h.readied_iff w).mpr ⟨hw, hopen⟩
    rw [hq, List.mem_append] at hmem
    have hpair := List.mem_map_of_mem (f := fun w => (w.task, w.awaited)) (hmem.resolve_left hnot)
    rw [← hready] at hpair
    obtain ⟨r, hr, heq⟩ := List.mem_map.mp hpair
    exact .inl (List.mem_map.mpr ⟨r, hr, (Prod.mk.inj heq).1⟩)
  | true =>
    -- the body waits with a pending task
    obtain ⟨id, hid⟩ : ∃ id, w.awaited = .task id := by
      cases ha : w.awaited with
      | value v =>
        rw [ha] at hopen
        cases hopen
      | task id => exact ⟨id, rfl⟩
    have hfor : w.isFor id = true := by simp [Suspension.isFor, hid]
    obtain ⟨t, ht⟩ : ∃ t, s.tasks[id.index]? = some t :=
      ⟨_, Array.getElem?_eq_getElem ((h.started_iff id).mp (hasStarted_of_isFor hw hfor))⟩
    have hpending : t.state.isSettled = false := by
      rw [← isSettled_stateOf ht, ← Bool.not_eq_true, ← h.ended_iff]
      rw [hid] at hopen
      simpa [Awaited.isOpen] using hopen
    have hwaiter : w.task ∈ t.waiters.map (·.id) := by
      rw [h.waiters id t ht hpending]
      exact List.mem_map_of_mem (List.mem_filter.mpr ⟨hw, hfor⟩)
    exact .inr (List.mem_flatMap.mpr ⟨t, by simpa using Array.mem_of_getElem? ht, hwaiter⟩)

/-- An event that neither starts nor ends a task, and in which no body begins or ends to wait. -/
theorem Delivers.plain (h : Delivers es s) (hstart : ∀ id isMain, e ≠ .started id isMain)
    (hawait : ∀ p a, e ≠ .awaited p a) (hsettle : ∀ id state, e ≠ .settled id state)
    (hresume : ∀ p got, e ≠ .resumed p got) : Delivers (es ++ [e]) s := by
  refine ⟨fun id => ?_, fun id state => ?_, ?_, ?_, fun w => mem_readied_iff, ?_, fun w => ?_,
    throughout_concat h.gets fun p got heq => absurd heq (hresume p got)⟩
  · rw [hasStarted_concat hstart]
    exact h.started_iff id
  · rw [← h.settled_iff, List.mem_append, List.mem_singleton]
    simp [(hsettle id state).symm]
  · rw [suspensions_concat hawait]
    exact h.waiters
  · rw [readied_concat hawait hsettle, resumed_concat hresume]
    exact h.queue
  · rw [readied_concat hawait hsettle]
    exact h.nodup
  · rw [suspensions_concat hawait, resumed_concat hresume, latest_concat hawait]
    exact h.last w

/-- The start of a task. -/
theorem Delivers.start (h : Delivers es s) (name : String) (body : β) (observed isMain : Bool) :
    Delivers (es ++ [.started s.nextId isMain]) (s.start name body observed) := by
  refine ⟨fun id => ?_, fun id state => ?_,
    fun id t ht hs => ?_, ?_, fun w => mem_readied_iff, ?_, fun w => ?_,
    throughout_concat h.gets fun p got heq => by cases heq⟩
  · rw [hasStarted_started, Bool.or_eq_true, h.started_iff, decide_eq_true_eq, start_tasks,
      Array.size_push, Nat.lt_succ_iff_lt_or_eq]
    refine or_congr Iff.rfl ⟨?_, fun hid => TaskId.index_inj.mp hid.symm⟩
    rintro rfl
    rfl
  · rw [stateOf_start, ← h.settled_iff]
    simp
  · rw [suspensions_concat (by simp)]
    rw [start_tasks, Array.getElem?_push] at ht
    split at ht
    · -- nothing waits for the new task
      rename_i hid
      obtain rfl := Option.some.inj ht
      have hnone : (suspensions es).filter (·.isFor id) = [] := by
        refine List.filter_eq_nil_iff.mpr fun w hw hfor => ?_
        have := (h.started_iff id).mp (hasStarted_of_isFor hw hfor)
        omega
      rw [hnone]
      rfl
    · exact h.waiters id t ht hs
  · rw [readied_concat (by simp) (by simp), resumed_concat (by simp)]
    exact h.queue
  · rw [readied_concat (by simp) (by simp)]
    exact h.nodup
  · rw [suspensions_concat (by simp), resumed_concat (by simp), latest_concat (by simp)]
    exact h.last w

section Pop

variable {id : TaskId} {body : β} {outer : List (Parked β)}

/-- A body that waits for something at hand joins the queue. -/
theorem Delivers.enqueue (h : Delivers es s) (id : TaskId) (body' : β) {a : Awaited ν}
    (hopen : (a.known es).isOpen es = false) :
    (s.suspend ⟨id, body'⟩ a).1.ready = s.ready ++ [⟨⟨id, body'⟩, a.known es⟩] ∧
      ∀ (x : TaskId) t', (s.suspend ⟨id, body'⟩ a).1.tasks[x.index]? = some t' →
        ∃ t, s.tasks[x.index]? = some t ∧ t'.state = t.state ∧ t'.waiters = t.waiters := by
  cases a with
  | value v => exact ⟨rfl, fun x t' ht => ⟨t', ht, rfl, rfl⟩⟩
  | task i =>
    cases ht : s.tasks[i.index]? with
    | none =>
      have hnew : hasStarted es i = false := by
        rw [← Bool.not_eq_true, h.started_iff, Nat.not_lt]
        exact Array.getElem?_eq_none_iff.mp ht
      simp only [suspend, ht, Awaited.known, hnew]
      exact ⟨rfl, fun x t' ht => ⟨t', ht, rfl, rfl⟩⟩
    | some t =>
      have hold : hasStarted es i = true :=
        (h.started_iff i).mpr (Array.getElem?_eq_some_iff.mp ht).1
      have hsettled : t.state.isSettled = true := by
        rw [← isSettled_stateOf ht, ← h.ended_iff]
        simpa [Awaited.known, hold, Awaited.isOpen] using hopen
      simp only [suspend, ht, hsettled, Awaited.known, hold, if_true]
      refine ⟨rfl, fun x t' ht' => ?_⟩
      simp only [Scheduler.enqueue, modify, Array.getElem?_modify] at ht'
      split at ht'
      · obtain ⟨t, ht, rfl⟩ := Option.map_eq_some_iff.mp ht'
        exact ⟨t, ht, rfl, rfl⟩
      · exact ⟨t', ht', rfl, rfl⟩

/-- A body that waits for a task that has not ended joins the waiters of the task. -/
theorem Delivers.join (h : Delivers es s) (id : TaskId) (body' : β) {a : Awaited ν}
    (hopen : (a.known es).isOpen es = true) :
    ∃ i t, a.known es = .task i ∧ s.tasks[i.index]? = some t ∧
      (s.suspend ⟨id, body'⟩ a).1 =
        s.modify i fun t => { t with observed := true, waiters := t.waiters ++ [⟨id, body'⟩] } := by
  cases a with
  | value v => cases hopen
  | task i =>
    cases hold : hasStarted es i with
    | false => simp [Awaited.known, hold, Awaited.isOpen] at hopen
    | true =>
      have hlt := (h.started_iff i).mp hold
      have ht : s.tasks[i.index]? = some s.tasks[i.index] := Array.getElem?_eq_getElem hlt
      have hpending : s.tasks[i.index].state.isSettled = false := by
        rw [← isSettled_stateOf ht, ← Bool.not_eq_true, ← h.ended_iff]
        simpa [Awaited.known, hold, Awaited.isOpen] using hopen
      exact ⟨i, _, by simp [Awaited.known, hold], ht, by simp [suspend, hlt, hpending]⟩

/-- A body that begins to wait stands with the task that it waits for if that is pending. -/
theorem Delivers.waiters_suspend (h : Delivers es s) (id : TaskId) (body' : β) (a : Awaited ν)
    {x : TaskId} {t' : Task β ν} (ht' : (s.suspend ⟨id, body'⟩ a).1.tasks[x.index]? = some t')
    (hs : t'.state.isSettled = false) : t'.waiters.map (·.id) =
      ((suspensions (es ++ [.awaited id a])).filter (·.isFor x)).map (·.task) := by
  rw [suspensions_awaited, List.filter_append, List.map_append]
  cases hopen : (a.known es).isOpen es with
  | false =>
    obtain ⟨t, ht, hstate', hwaiters⟩ := (h.enqueue id body' hopen).2 x t' ht'
    rw [hstate'] at hs
    -- what the body waits for is no pending task
    have hnot : (suspension es id a).isFor x = false := by
      rw [Bool.eq_false_iff]
      intro hfor
      have hknown : a.known es = .task x := Suspension.awaited_of_isFor hfor
      have hended : hasEnded es x = true := by simpa [hknown, Awaited.isOpen] using hopen
      rw [h.ended_iff, isSettled_stateOf ht, hs] at hended
      cases hended
    simp [hwaiters, hnot, h.waiters x t ht hs]
  | true =>
    obtain ⟨i, t, hknown, ht, hsuspend⟩ := h.join id body' hopen
    rw [hsuspend] at ht'
    simp only [modify, Array.getElem?_modify] at ht'
    by_cases hx : i = x
    · subst hx
      rw [if_pos rfl, ht] at ht'
      obtain rfl := Option.some.inj ht'
      simp [suspension, Suspension.isFor, hknown, h.waiters i t ht hs]
    · have hindex : i.index ≠ x.index := fun heq => hx (TaskId.index_inj.mp heq)
      rw [if_neg hindex] at ht'
      simp [suspension, Suspension.isFor, hknown, hx, h.waiters x t' ht' hs]

/-- A body that begins to wait stands in the queue if what it waits for is at hand. -/
theorem Delivers.queue_suspend (h : Delivers es s) (id : TaskId) (body' : β) (a : Awaited ν) :
    ∃ q, readied (es ++ [.awaited id a]) = resumed (es ++ [.awaited id a]) ++ q ∧
      (s.suspend ⟨id, body'⟩ a).1.ready.map (fun r => (r.parked.id, r.awaited)) =
        q.map fun w => (w.task, w.awaited) := by
  obtain ⟨q, hq, hready⟩ := h.queue
  rw [readied_awaited, resumed_concat (by simp)]
  cases hopen : (a.known es).isOpen es with
  | false =>
    refine ⟨q ++ [suspension es id a], by simp [hq], ?_⟩
    rw [(h.enqueue id body' hopen).1, List.map_append, hready, List.map_append]
    rfl
  | true =>
    obtain ⟨i, t, -, -, hsuspend⟩ := h.join id body' hopen
    refine ⟨q, by simp [hq], ?_⟩
    rw [hsuspend]
    exact hready

/-- A body that begins to wait, whose task stands nowhere. -/
theorem Delivers.suspend (h : Delivers es s) (hid : id ∉ s.standing) (body' : β) (a : Awaited ν) :
    Delivers (es ++ [.awaited id a]) (s.suspend ⟨id, body'⟩ a).1 := by
  refine ⟨fun x => ?_, fun x state => ?_, fun x t' ht' hs => h.waiters_suspend id body' a ht' hs,
    h.queue_suspend id body' a, fun w => mem_readied_iff, ?_, fun w hw hnot => ?_,
    throughout_concat h.gets fun p got heq => by cases heq⟩
  · rw [hasStarted_concat (by simp), size_tasks_suspend]
    exact h.started_iff x
  · rw [stateOf_suspend, ← h.settled_iff]
    simp
  · rw [readied_awaited]
    refine h.nodup.append (by split <;> simp) ?_
    have hnew : suspension es id a ∉ readied es := fun hw =>
      suspension_notMem (mem_readied_iff.mp hw).1
    split <;> simp [hnew]
  · rw [suspensions_awaited, List.mem_append, List.mem_singleton] at hw
    rw [resumed_concat (by simp)] at hnot
    rw [latest_awaited]
    obtain hw | rfl := hw
    · have hne : id ≠ w.task := by
        rintro rfl
        exact hid (h.task_mem_standing hw hnot)
      rw [if_neg hne]
      exact h.last w hw hnot
    · exact if_pos rfl

/-- The waiters of a task that ends go to the end of the queue, in the order of their waits. -/
theorem Delivers.queue_settle (h : Delivers es s) {t : Task β ν} (ht : s.tasks[id.index]? = some t)
    (hpending : t.state.isSettled = false) (state : TaskState ν) :
    ∃ q, readied (es ++ [.settled id state]) = resumed (es ++ [.settled id state]) ++ q ∧
      (s.settle id state).ready.map (fun r => (r.parked.id, r.awaited)) =
        q.map fun w => (w.task, w.awaited) := by
  obtain ⟨q, hq, hready⟩ := h.queue
  have hwaiters : t.waiters.map (fun p => (p.id, Awaited.task id)) =
      ((suspensions es).filter (·.isFor id)).map fun w => (w.task, w.awaited) := by
    calc t.waiters.map (fun p => (p.id, Awaited.task id))
        = (t.waiters.map (·.id)).map fun p => (p, Awaited.task id) := by simp
      _ = ((suspensions es).filter (·.isFor id)).map fun w => (w.task, Awaited.task id) := by
          rw [h.waiters id t ht hpending, List.map_map]
          rfl
      _ = ((suspensions es).filter (·.isFor id)).map fun w => (w.task, w.awaited) :=
          List.map_congr_left fun w hw => by
            rw [Suspension.awaited_of_isFor (List.mem_filter.mp hw).2]
  refine ⟨q ++ (suspensions es).filter (·.isFor id), ?_, ?_⟩
  · rw [readied_settled, resumed_concat (by simp), hq, List.append_assoc]
  · simp only [Scheduler.settle, ht, List.map_append, List.map_map, Function.comp_def, hready,
      hwaiters]

/-- A task that ends although it was pending. -/
theorem Delivers.settle (h : Delivers es s) (hpend : s.isPending id = true) {state : TaskState ν}
    (hs : state.isSettled = true) : Delivers (es ++ [.settled id state]) (s.settle id state) := by
  obtain ⟨t, ht, hpending⟩ := exists_of_isPending hpend
  have hself := stateOf_settle_self ht state
  -- the task has not ended before
  have hold : ∀ state', .settled id state' ∉ es := fun state' hmem => by
    obtain ⟨hsettled, rfl⟩ := (h.settled_iff id state').mp hmem
    rw [isSettled_stateOf ht, hpending] at hsettled
    cases hsettled
  refine ⟨fun x => ?_, fun x state' => ?_, fun x t' ht' hs' => ?_, h.queue_settle ht hpending state,
    fun w => mem_readied_iff, ?_, fun w => ?_,
      throughout_concat h.gets fun p got heq => by cases heq⟩
  · rw [hasStarted_concat (by simp), size_tasks_settle]
    exact h.started_iff x
  · rw [List.mem_append, List.mem_singleton, Event.settled.injEq]
    by_cases hx : x = id
    · subst hx
      rw [hself]
      constructor
      · rintro (hmem | ⟨-, rfl⟩)
        · exact absurd hmem (hold state')
        · exact ⟨hs, rfl⟩
      · rintro ⟨-, rfl⟩
        exact .inr ⟨rfl, rfl⟩
    · rw [stateOf_settle_of_ne _ _ hx, ← h.settled_iff]
      simp [hx]
  · by_cases hx : x = id
    · subst hx
      rw [← isSettled_stateOf ht', hself, hs] at hs'
      cases hs'
    · rw [getElem?_settle_of_ne _ _ hx] at ht'
      rw [suspensions_concat (by simp)]
      exact h.waiters x t' ht' hs'
  · -- the waits for the task were open up to now
    rw [readied_settled]
    refine h.nodup.append ((suspensions_nodup es).filter _) fun w hw hw' => ?_
    have hended := (mem_readied_iff.mp hw).2
    rw [Suspension.awaited_of_isFor (List.mem_filter.mp hw').2, Awaited.isOpen, Bool.not_eq_false',
      hasEnded_iff] at hended
    obtain ⟨state', hmem⟩ := hended
    exact hold state' hmem
  · rw [suspensions_concat (by simp), resumed_concat (by simp), latest_concat (by simp)]
    exact h.last w

theorem delivery_task (s : Scheduler β ν) (id : TaskId) :
    s.delivery (.task id) = (s.stateOf id).outcome := by
  simp only [delivery]
  cases s.stateOf id <;> rfl

/-- The body at the front of the queue goes on. -/
theorem Delivers.resume (h : Delivers es s) {p : Parked β} {a : Awaited ν} {rest : List (Ready β ν)}
    (hq : s.ready = ⟨p, a⟩ :: rest) :
    Delivers (es ++ [.resumed p.id (s.delivery a)]) { s with ready := rest } := by
  obtain ⟨q, hreadied, hready⟩ := h.queue
  rw [hq] at hready
  cases q with
  | nil => cases hready
  | cons w q =>
    obtain ⟨hw, hrest⟩ := List.cons.inj hready
    obtain ⟨hp, rfl⟩ := Prod.mk.inj hw
    have hmem : w ∈ readied es := by simp [hreadied]
    obtain ⟨hsusp, hclosed⟩ := (h.readied_iff w).mp hmem
    have hnot : w ∉ resumed es := fun hw => by
      have hdisjoint := List.disjoint_of_nodup_append (hreadied ▸ h.nodup)
      exact hdisjoint hw (List.mem_cons_self ..)
    have hlast : latest es p.id = some w := hp ▸ h.last w hsusp hnot
    have hresumed : resumed (es ++ [.resumed p.id (s.delivery w.awaited)]) = resumed es ++ [w] := by
      rw [resumed_resumed, hlast]
      rfl
    refine ⟨fun id => ?_, fun id state => ?_, ?_, ⟨q, ?_, hrest⟩,
      fun w' => mem_readied_iff, ?_, fun w' hw' hnot' => ?_,
      throughout_concat h.gets fun p' got heq => ?_⟩
    · rw [hasStarted_concat (by simp)]
      exact h.started_iff id
    · refine Iff.trans ?_ (h.settled_iff id state)
      simp
    · rw [suspensions_concat (by simp)]
      exact h.waiters
    · rw [readied_concat (by simp) (by simp), hresumed, hreadied, List.append_assoc]
      rfl
    · rw [readied_concat (by simp) (by simp)]
      exact h.nodup
    · rw [suspensions_concat (by simp)] at hw'
      rw [hresumed, List.mem_append, not_or] at hnot'
      rw [latest_concat (by simp)]
      exact h.last w' hw' hnot'.1
    · obtain ⟨rfl, rfl⟩ := Event.resumed.inj heq
      refine ⟨w, hlast, ?_⟩
      cases ha : w.awaited with
      | value v => exact .value v
      | task id =>
        rw [ha] at hclosed
        have hended : hasEnded es id = true := by simpa [Awaited.isOpen] using hclosed
        obtain ⟨state, hmem⟩ := hasEnded_iff.mp hended
        obtain ⟨-, hstate⟩ := (h.settled_iff id state).mp hmem
        rw [delivery_task, hstate]
        exact .task hmem

end Pop

/-- No move makes the queue and the waiters disagree with the history. -/
theorem lasting_delivers : Lasting fun es (s : Scheduler β ν) =>
    (∃ failed, s.Accounted failed) ∧ Delivers es s where
  step {es e s s'} h hstep := by
    obtain ⟨⟨failed, hacc⟩, h⟩ := h
    refine ⟨⟨_, hacc.step hstep⟩, ?_⟩
    cases hstep with
    | spawn name body hr => exact h.start name body false false
    | run name body hr => exact (h.start name body true true).same rfl rfl
    | child name child parent hr => exact (h.start name child false false).same rfl rfl
    | @await id body outer what body' hr =>
      obtain ⟨-, -, hplace⟩ := hacc.of_running (p := ⟨id, body⟩) (by rw [hr]; simp)
      have hpop : Delivers es { s with running := outer } := h.same rfl rfl
      exact hpop.suspend (List.count_eq_zero.mp hplace) body' what
    | @settle id body outer state hr hs hm =>
      obtain ⟨hpend, -, -⟩ := hacc.of_running (p := ⟨id, body⟩) (by rw [hr]; simp)
      have hpop : Delivers es { s with running := outer } := h.same rfl rfl
      exact hpop.settle hpend hs
    | resume body' hr hq hl => exact (h.resume hq).same rfl rfl
    | _ => exact (h.plain (by simp) (by simp) (by simp) (by simp)).same rfl rfl
  dropped {es s} h := by
    obtain ⟨⟨failed, hacc⟩, h⟩ := h
    exact ⟨⟨_, hacc.dropped⟩, (h.plain (by simp) (by simp) (by simp) (by simp)).same rfl rfl⟩

end Scheduler

namespace Machine

variable {β ν ω : Type} [Inhabited ν] {B : Behaviour β ν ω} {m m' : Machine β ν ω}
  {ds : List (Deed ν)} {maxSteps : ℕ} {world : ω}

theorem Course.delivers (h : Course B ⟨.fresh maxSteps, world⟩ ds m) :
    m.sched.Delivers (events ds) :=
  (h.lasting_fresh Scheduler.lasting_delivers
    ⟨⟨[], Scheduler.accounted_fresh maxSteps⟩, Scheduler.delivers_fresh maxSteps⟩).2

/-- The state of a task that has ended is final. -/
theorem Course.stateOf_eq (h : Course B ⟨.fresh maxSteps, world⟩ ds m) {ds' : List (Deed ν)}
    (h' : Course B m ds' m') {id : TaskId} (hs : (m.sched.stateOf id).isSettled = true) :
    m'.sched.stateOf id = m.sched.stateOf id := by
  have hmem := (h.delivers.settled_iff id _).mpr ⟨hs, rfl⟩
  refine (((h.trans h').delivers.settled_iff id _).mp ?_).2
  rw [events_append]
  exact List.mem_append_left _ hmem

/-- Where a history says that a body went on, the one that its wait left behind did, with what it
    had waited for. -/
theorem Course.goes_on_faithfully {before after : List (Deed ν)} {d : Deed ν} {p : TaskId}
    {got : Delivery ν} (h : Course B ⟨.fresh maxSteps, world⟩ (before ++ d :: after) m)
    (hd : d.event = .resumed p got) :
    ∃ w m', latest (events before) p = some w ∧ Gets (events before) w.awaited got ∧
      GoesOn B ⟨.fresh maxSteps, world⟩ before w got m' ∧ Course B m' after m := by
  obtain ⟨w, m', hw, hgoes, hafter⟩ := h.goes_on hd
  have hgets := h.delivers.gets (events before) d.event (events after) (by simp)
  obtain ⟨w', hw', hgot⟩ := hgets p got hd
  obtain rfl := Option.some.inj (hw.symm.trans hw')
  exact ⟨w, m', hw, hgot, hgoes, hafter⟩

/-- At every moment of every course of a fresh machine, whatever its bodies do: a task that has
    ended keeps its state. Bodies have gone on from waits in the order in which the waits came to an
    end, and from none of them twice. A body that went on got the plain value that it had waited
    for, or the outcome of the task: the machine ran on with the very body that the wait had left
    behind, resumed with this, and each move in which no body runs is of this kind. And after a
    drain that ends normally, bodies have gone on from all waits for plain values and for tasks that
    have ended. -/
theorem Course.deliveries (h : Course B ⟨.fresh maxSteps, world⟩ ds m) :
    (∀ id state, .settled id state ∈ events ds ↔
      state.isSettled = true ∧ m.sched.stateOf id = state) ∧
    (∀ ds' m', Course B m ds' m' → ∀ id, (m.sched.stateOf id).isSettled = true →
      m'.sched.stateOf id = m.sched.stateOf id) ∧
    (readied (events ds)).Nodup ∧ (resumed (events ds)).Nodup ∧
    resumed (events ds) <+: readied (events ds) ∧ Throughout Faithfully (events ds) ∧
    (∀ before d after p got, ds = before ++ d :: after → d.event = .resumed p got →
      ∃ w m', latest (events before) p = some w ∧ Gets (events before) w.awaited got ∧
        GoesOn B ⟨.fresh maxSteps, world⟩ before w got m' ∧ Course B m' after m) ∧
    (∀ m', m.sched.running = [] → tick B m = .next m' →
      ∃ w got, latest (events ds) w.task = some w ∧ Gets (events ds) w.awaited got ∧
        m.event B = .resumed w.task got ∧ GoesOn B ⟨.fresh maxSteps, world⟩ ds w got m') ∧
    ∀ fuel m', drain B fuel m = some (.ok (), m') →
      resumed (events ds ++ drainEvents B fuel m) = readied (events ds ++ drainEvents B fuel m) ∧
      ∀ w ∈ suspensions (events ds ++ drainEvents B fuel m),
        (∀ id, w.awaited = .task id → (m'.sched.stateOf id).isSettled = true) →
        w ∈ resumed (events ds ++ drainEvents B fuel m) := by
  have hdelivers := h.delivers
  obtain ⟨q, hq, -⟩ := hdelivers.queue
  have hprefix : resumed (events ds) <+: readied (events ds) := ⟨q, hq.symm⟩
  refine ⟨hdelivers.settled_iff, fun ds' m' h' id => h.stateOf_eq h', hdelivers.nodup,
    hdelivers.nodup.sublist hprefix.sublist, hprefix, hdelivers.gets,
    fun before d after p got hds hd => (hds ▸ h).goes_on_faithfully hd, fun m' hr hmove => ?_,
    fun fuel m' hd => ?_⟩
  · obtain ⟨w, got, hw, hevent, hgoes⟩ := h.goes_on_of_next hr hmove
    obtain ⟨w', -, hw', hgot, -⟩ := (h.next hmove).goes_on_faithfully hevent
    obtain rfl := Option.some.inj (hw.symm.trans hw')
    exact ⟨w, got, hw, hgot, hevent, hgoes⟩
  obtain ⟨ds', hevents, h'⟩ := h.drain_call hd
  have hdelivers' := h'.delivers
  rw [events_append, hevents] at hdelivers'
  have hempty : m'.sched.ready = [] := by
    obtain ⟨m₁, -, -, hready, hsched, -⟩ := drain_eq_ok hd
    rw [hsched]
    exact hready
  -- the queue is empty, so no wait that has come to its end is left
  have hall : resumed (events ds ++ drainEvents B fuel m) =
      readied (events ds ++ drainEvents B fuel m) := by
    obtain ⟨q', hq', hready'⟩ := hdelivers'.queue
    rw [hempty, List.map_nil] at hready'
    rw [hq', List.map_eq_nil_iff.mp hready'.symm, List.append_nil]
  refine ⟨hall, fun w hw hended => ?_⟩
  rw [hall, hdelivers'.readied_iff]
  refine ⟨hw, ?_⟩
  cases ha : w.awaited with
  | value v => rfl
  | task id => simpa [Awaited.isOpen] using (hdelivers'.ended_iff id).mpr (hended id ha)

/-! ## Bodies that count -/

/-- A move of a body that counts. -/
inductive Tally where
  /-- it waits for a number -/
  | give (n : ℕ)
  | join (id : TaskId)
  | start (name : String) (moves : List Tally)

/-- The moves that are left to a body, and the sum of what it got. -/
structure Counter where
  moves : List Tally
  total : ℕ

/-- Bodies that make their moves one after the other and end with the sum of what they got. -/
def counting : Behaviour Counter ℕ Unit where
  act world _
    | ⟨[], total⟩ => (.finish total, world)
    | ⟨.give n :: rest, total⟩ => (.await (.value n) ⟨rest, total⟩, world)
    | ⟨.join id :: rest, total⟩ => (.await (.task id) ⟨rest, total⟩, world)
    | ⟨.start name moves :: rest, total⟩ => (.spawn name ⟨moves, 0⟩ fun _ => ⟨rest, total⟩, world)
  resume body
    | .value n => { body with total := body.total + n }
    | _ => body
  note _ world := world

/-- A main body that waits for a task after another one does. -/
def joinTwice : Counter :=
  ⟨[.start "slow" [.give 3], .start "first" [.join ⟨1⟩], .join ⟨1⟩], 0⟩

/-- The machine that is left when `joinTwice` has run. -/
def joined : Machine Counter ℕ Unit :=
  ⟨⟨#[⟨"main", .fulfilled 3, [], true⟩, ⟨"slow", .fulfilled 3, [], true⟩,
    ⟨"first", .fulfilled 3, [], false⟩], [], [], some ⟨0⟩, 3, 10, [], []⟩, ()⟩

theorem run_joinTwice : run counting 20 "main" joinTwice ⟨.fresh 10, ()⟩ = some (.ok ⟨0⟩, joined) :=
  rfl

example : (readied (runEvents counting 20 "main" joinTwice ⟨.fresh 10, ()⟩)).map
    (fun w => (w.place, w.task.index)) = [(2, 1), (4, 2), (5, 0)] := by rfl

/-- What happens in a run of `joinTwice` until the main body goes on. -/
def joinedBefore : List (Event ℕ) := [
  .started ⟨0⟩ true, .started ⟨1⟩ false, .awaited ⟨1⟩ (.value 3), .started ⟨2⟩ false,
  .awaited ⟨2⟩ (.task ⟨1⟩), .awaited ⟨0⟩ (.task ⟨1⟩), .resumed ⟨1⟩ (.value 3),
  .settled ⟨1⟩ (.fulfilled 3), .resumed ⟨2⟩ (.value 3), .settled ⟨2⟩ (.fulfilled 3)]

theorem deliveries_joined : ∃ ds, Course counting ⟨.fresh 10, ()⟩ ds joined ∧
    events ds = runEvents counting 20 "main" joinTwice ⟨.fresh 10, ()⟩ ∧
    (resumed (events ds)).Nodup ∧ resumed (events ds) <+: readied (events ds) ∧
    ∃ before w m', events before = joinedBefore ∧ w.awaited = .task ⟨1⟩ ∧
      GoesOn counting ⟨.fresh 10, ()⟩ before w (.value 3) m' := by
  obtain ⟨ds, hevents, h⟩ := (Uses.none.run run_joinTwice).course
  obtain ⟨-, -, -, hnodup, hprefix, -, hgoes, -⟩ := h.deliveries
  refine ⟨ds, h, hevents, hnodup, hprefix, ?_⟩
  have hlist : events ds = joinedBefore ++
      .resumed ⟨0⟩ (.value 3) :: [.settled ⟨0⟩ (.fulfilled 3), .drained, .returned ⟨0⟩] := hevents
  obtain ⟨before, rest, rfl, hbefore, hrest⟩ := List.map_eq_append_iff.mp hlist
  obtain ⟨d, after, rfl, hd, -⟩ := List.map_eq_cons_iff.mp hrest
  obtain ⟨w, m', hw, -, hgoes, -⟩ := hgoes before d after _ _ rfl hd
  rw [show events before = joinedBefore from hbefore] at hw
  obtain rfl := Option.some.inj hw
  exact ⟨before, _, m', hbefore, rfl, hgoes⟩

end Machine

end CoScript
