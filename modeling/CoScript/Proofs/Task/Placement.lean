import CoScript.Proofs.Task.History

/-!
# Where tasks stand

A task that runs no body right now waits in one place: in the queue, or with one task. Whatever is
moved from one place to another is neither lost nor doubled.

Results:
* `Scheduler.standing`: the tasks in the queue and with other tasks, one for each place.
* `Scheduler.Placed`: each pending task stands once, and no settled task stands anywhere.
* `Machine.Calls.placed_throughout`: this holds between the calls of a host and at every move in
  them.
-/

namespace CoScript

namespace Scheduler

variable {β ν : Type}

/-- The tasks whose bodies wait, once for each place: the queue, and then the waiters of each
    task. -/
def standing (s : Scheduler β ν) : List TaskId :=
  s.ready.map (·.parked.id) ++ s.tasks.toList.flatMap fun t => t.waiters.map (·.id)

/-- Whether a body of a task is running. -/
def IsRunning (s : Scheduler β ν) (id : TaskId) : Prop :=
  ∃ p ∈ s.running, p.id = id

/-- Each task is in its place. The main tasks that ended in a fault stand nowhere although they stay
    pending. -/
structure Placed (s : Scheduler β ν) (failed : List TaskId) : Prop where
  pending_once : ∀ id t, s.tasks[id.index]? = some t → ¬ s.IsRunning id →
    t.state.isSettled = false → id ∉ failed → s.standing.count id = 1
  settled_nowhere : ∀ id t, s.tasks[id.index]? = some t → ¬ s.IsRunning id →
    t.state.isSettled = true → s.standing.count id = 0
  waiters_pending : ∀ (id : TaskId) t, s.tasks[id.index]? = some t → t.waiters ≠ [] →
    t.state.isSettled = false
  ready_settled : ∀ r ∈ s.ready, ∀ id, r.awaited = .task id → (s.stateOf id).isSettled = true

/-! ## Counting places -/

/-- Whether a task exists and has not ended. -/
def isPending (s : Scheduler β ν) (id : TaskId) : Bool :=
  match s.tasks[id.index]? with
  | some t => !t.state.isSettled
  | none => false

theorem isPending_eq {s : Scheduler β ν} {id : TaskId} {t : Task β ν}
    (h : s.tasks[id.index]? = some t) : s.isPending id = !t.state.isSettled := by
  simp [isPending, h]

theorem exists_of_isPending {s : Scheduler β ν} {id : TaskId} (h : s.isPending id = true) :
    ∃ t, s.tasks[id.index]? = some t ∧ t.state.isSettled = false := by
  unfold isPending at h
  split at h
  · rename_i t ht
    exact ⟨t, ht, by simpa using h⟩
  · cases h

theorem lt_of_isPending {s : Scheduler β ν} {id : TaskId} (h : s.isPending id = true) :
    id.index < s.tasks.size := by
  obtain ⟨t, ht, -⟩ := exists_of_isPending h
  exact (Array.getElem?_eq_some_iff.mp ht).1

theorem isSettled_stateOf {s : Scheduler β ν} {id : TaskId} {t : Task β ν}
    (h : s.tasks[id.index]? = some t) : (s.stateOf id).isSettled = t.state.isSettled := by
  simp [stateOf, h]

theorem count_flatMap_modify {α : Type} {l : List α} {i : ℕ} {a : α} (h : l[i]? = some a)
    (f : α → α) (g : α → List TaskId) (x : TaskId) :
    ((l.modify i f).flatMap g).count x + (g a).count x =
      (l.flatMap g).count x + (g (f a)).count x := by
  induction l generalizing i with
  | nil => simp at h
  | cons b l ih =>
    cases i with
    | zero =>
      simp only [List.getElem?_cons_zero, Option.some.injEq] at h
      subst h
      simp only [List.modify_zero_cons, List.flatMap_cons, List.count_append]
      omega
    | succ i =>
      have := ih (by simpa using h)
      simp only [List.modify_succ_cons, List.flatMap_cons, List.count_append]
      omega

theorem count_standing_enqueue (s : Scheduler β ν) (p : Parked β) (a : Awaited ν) (x : TaskId) :
    (s.enqueue p a).standing.count x = s.standing.count x + [p.id].count x := by
  simp only [standing, enqueue, List.map_append, List.map_cons, List.map_nil, List.count_append]
  omega

theorem count_standing_modify {s : Scheduler β ν} {id : TaskId} {t : Task β ν}
    (h : s.tasks[id.index]? = some t) (f : Task β ν → Task β ν) (x : TaskId) :
    (s.modify id f).standing.count x + (t.waiters.map (·.id)).count x =
      s.standing.count x + ((f t).waiters.map (·.id)).count x := by
  have hl : s.tasks.toList[id.index]? = some t := by simpa using h
  have := count_flatMap_modify hl f (fun t => t.waiters.map (·.id)) x
  simp only [standing, modify, Array.toList_modify, List.count_append]
  omega

theorem standing_start (s : Scheduler β ν) (name : String) (body : β) (observed : Bool) :
    (s.start name body observed).standing = s.standing := by
  simp [standing, start]

theorem isPending_start (s : Scheduler β ν) (name : String) (body : β) (observed : Bool)
    (x : TaskId) :
    (s.start name body observed).isPending x = (decide (x = s.nextId) || s.isPending x) := by
  by_cases hx : x.index = s.tasks.size
  · have : x = s.nextId := TaskId.index_inj.mp hx
    simp [isPending, this, TaskState.isSettled, nextId]
  · have : x ≠ s.nextId := by rintro rfl; exact hx rfl
    simp [isPending, Array.getElem?_push, hx, this]

/-- A change of a task that leaves its state alone leaves all tasks as pending as before. -/
theorem isPending_modify (s : Scheduler β ν) (id : TaskId) (f : Task β ν → Task β ν)
    (hf : ∀ t, (f t).state = t.state) (x : TaskId) :
    (s.modify id f).isPending x = s.isPending x := by
  simp only [isPending, modify, Array.getElem?_modify]
  by_cases hx : id.index = x.index <;> cases s.tasks[x.index]? <;> simp [hx, hf]

theorem count_standing_settle (s : Scheduler β ν) (id : TaskId) (state : TaskState ν)
    (x : TaskId) : (s.settle id state).standing.count x = s.standing.count x := by
  unfold settle
  split
  · rfl
  · rename_i t ht
    have := count_standing_modify ht (fun t => { t with state, waiters := [] }) x
    simp only [standing, modify, List.map_append, List.map_map, Function.comp_def,
      List.count_append, List.map_nil, List.count_nil] at this ⊢
    omega

/-- The end of a task leaves all others as they are. -/
theorem getElem?_settle_of_ne (s : Scheduler β ν) {id x : TaskId} (state : TaskState ν)
    (hx : x ≠ id) : (s.settle id state).tasks[x.index]? = s.tasks[x.index]? := by
  have : id.index ≠ x.index := fun h => hx (TaskId.index_inj.mp h).symm
  unfold settle
  split
  · rfl
  · simp [Array.getElem?_modify, this]

theorem isPending_settle (s : Scheduler β ν) (id : TaskId) {state : TaskState ν}
    (hs : state.isSettled = true) (x : TaskId) :
    (s.settle id state).isPending x = (decide (x ≠ id) && s.isPending x) := by
  by_cases hx : x = id
  · subst hx
    unfold settle
    split
    · rename_i ht
      simp [isPending, ht]
    · rename_i t ht
      simp [isPending, Array.getElem?_modify, ht, hs]
  · rw [isPending, getElem?_settle_of_ne s state hx, ← isPending]
    simp [hx]

section Suspend

variable [Inhabited ν] (s : Scheduler β ν) (p : Parked β) (a : Awaited ν) (x : TaskId)

/-- Whatever it waits for, a body that waits stands in one more place. -/
theorem count_standing_suspend :
    (s.suspend p a).1.standing.count x = s.standing.count x + [p.id].count x := by
  obtain ⟨v, h⟩ | ⟨id, t, -, ht, -, h⟩ | ⟨id, t, -, ht, -, h⟩ := s.suspend_cases p a
  · rw [h, count_standing_enqueue]
  · have := count_standing_modify ht (fun t => { t with observed := true }) x
    rw [h, count_standing_enqueue]
    dsimp only at this
    omega
  · have := count_standing_modify ht
      (fun t => { t with observed := true, waiters := t.waiters ++ [p] }) x
    rw [h]
    simp only [List.map_append, List.map_cons, List.map_nil, List.count_append] at this
    omega

theorem isPending_suspend : (s.suspend p a).1.isPending x = s.isPending x := by
  obtain ⟨v, h⟩ | ⟨id, t, -, -, -, h⟩ | ⟨id, t, -, -, -, h⟩ := s.suspend_cases p a
  · rw [h]; rfl
  · rw [h]
    exact isPending_modify s id (fun t => { t with observed := true }) (fun _ => rfl) x
  · rw [h]
    exact isPending_modify s id (fun t => { t with observed := true, waiters := t.waiters ++ [p] })
      (fun _ => rfl) x

end Suspend

/-! ## States of tasks -/

theorem stateOf_start (s : Scheduler β ν) (name : String) (body : β) (observed : Bool)
    (x : TaskId) : (s.start name body observed).stateOf x = s.stateOf x := by
  by_cases hx : x.index = s.tasks.size
  · simp [stateOf, hx]
  · simp [stateOf, Array.getElem?_push, hx]

theorem stateOf_modify (s : Scheduler β ν) (id : TaskId) (f : Task β ν → Task β ν)
    (hf : ∀ t, (f t).state = t.state) (x : TaskId) :
    (s.modify id f).stateOf x = s.stateOf x := by
  simp only [stateOf, modify, Array.getElem?_modify]
  by_cases hx : id.index = x.index <;> cases s.tasks[x.index]? <;> simp [hx, hf]

theorem stateOf_settle_self {s : Scheduler β ν} {id : TaskId} {t : Task β ν}
    (h : s.tasks[id.index]? = some t) (state : TaskState ν) :
    (s.settle id state).stateOf id = state := by
  simp [settle, h, stateOf, Array.getElem?_modify]

theorem stateOf_settle_of_ne (s : Scheduler β ν) {id x : TaskId} (state : TaskState ν)
    (hx : x ≠ id) : (s.settle id state).stateOf x = s.stateOf x := by
  rw [stateOf, getElem?_settle_of_ne s state hx, ← stateOf]

section Suspend

variable [Inhabited ν] (s : Scheduler β ν) (p : Parked β) (a : Awaited ν)

theorem stateOf_suspend (x : TaskId) : (s.suspend p a).1.stateOf x = s.stateOf x := by
  obtain ⟨v, h⟩ | ⟨id, t, -, -, -, h⟩ | ⟨id, t, -, -, -, h⟩ := s.suspend_cases p a
  · rw [h]; rfl
  · rw [h]
    exact stateOf_modify s id (fun t => { t with observed := true }) (fun _ => rfl) x
  · rw [h]
    exact stateOf_modify s id (fun t => { t with observed := true, waiters := t.waiters ++ [p] })
      (fun _ => rfl) x

/-- A body that waits joins the waiters of a pending task or none. -/
theorem waiters_suspend {id : TaskId} {t' : Task β ν}
    (h : (s.suspend p a).1.tasks[id.index]? = some t') :
    ∃ t, s.tasks[id.index]? = some t ∧ t'.state = t.state ∧
      (t'.waiters = t.waiters ∨ t'.waiters = t.waiters ++ [p] ∧ a = .task id ∧
        t.state.isSettled = false) := by
  obtain ⟨v, he⟩ | ⟨id', t₀, -, -, -, he⟩ | ⟨id', t₀, ha, ht, hs, he⟩ := s.suspend_cases p a
  · rw [he] at h
    exact ⟨t', h, rfl, .inl rfl⟩
  · rw [he] at h
    simp only [enqueue, modify, Array.getElem?_modify] at h
    split at h
    · obtain ⟨t, ht, rfl⟩ := Option.map_eq_some_iff.mp h
      exact ⟨t, ht, rfl, .inl rfl⟩
    · exact ⟨t', h, rfl, .inl rfl⟩
  · rw [he] at h
    simp only [modify, Array.getElem?_modify] at h
    split at h
    · rename_i hid
      obtain ⟨t, ht', rfl⟩ := Option.map_eq_some_iff.mp h
      obtain rfl : id' = id := by cases id; cases id'; simp_all
      obtain rfl : t₀ = t := by rw [ht] at ht'; exact Option.some.inj ht'
      exact ⟨t₀, ht, rfl, .inr ⟨rfl, ha, hs⟩⟩
    · exact ⟨t', h, rfl, .inl rfl⟩

/-- What a body that waits in the queue waits for is at hand. -/
theorem ready_suspend {r : Ready β ν} (h : r ∈ (s.suspend p a).1.ready) :
    r ∈ s.ready ∨ ∀ id, r.awaited = .task id → (s.stateOf id).isSettled = true := by
  obtain ⟨v, he⟩ | ⟨id', t₀, ha, ht, hs, he⟩ | ⟨id', t₀, -, -, -, he⟩ := s.suspend_cases p a
  · rw [he] at h
    simp only [enqueue, List.mem_append, List.mem_singleton] at h
    obtain h | rfl := h
    · exact .inl h
    · exact .inr (by simp)
  · rw [he] at h
    simp only [enqueue, modify, List.mem_append, List.mem_singleton] at h
    obtain h | rfl := h
    · exact .inl h
    · refine .inr fun id hid => ?_
      rw [ha, Awaited.task.injEq] at hid
      subst hid
      rw [isSettled_stateOf ht, hs]
  · rw [he] at h
    exact .inl h

end Suspend

/-! ## The invariant -/

/-- The account of all tasks: one that is pending is running or stands somewhere, and that once; all
    others do neither. -/
structure Accounted (s : Scheduler β ν) (failed : List TaskId) : Prop where
  count : ∀ id, (s.running.map (·.id)).count id + s.standing.count id =
    if s.isPending id = true ∧ id ∉ failed then 1 else 0
  failed_lt : ∀ id ∈ failed, id.index < s.tasks.size
  waiters_pending : ∀ (id : TaskId) t, s.tasks[id.index]? = some t → t.waiters ≠ [] →
    t.state.isSettled = false
  ready_settled : ∀ r ∈ s.ready, ∀ id, r.awaited = .task id → (s.stateOf id).isSettled = true

theorem accounted_fresh (maxSteps : ℕ) : (fresh maxSteps : Scheduler β ν).Accounted [] :=
  ⟨by simp [fresh, standing, isPending], by simp, by simp [fresh], by simp [fresh]⟩

variable {s : Scheduler β ν} {failed : List TaskId}

/-- A running task is pending and stands nowhere. -/
theorem Accounted.of_running (h : s.Accounted failed) {p : Parked β} (hp : p ∈ s.running) :
    s.isPending p.id = true ∧ p.id ∉ failed ∧ s.standing.count p.id = 0 := by
  have hc := h.count p.id
  have : 0 < (s.running.map (·.id)).count p.id :=
    List.count_pos_iff.mpr (List.mem_map_of_mem hp)
  split at hc
  · rename_i hpend
    exact ⟨hpend.1, hpend.2, by omega⟩
  · omega

theorem Accounted.nextId_not_mem (h : s.Accounted failed) : s.nextId ∉ failed := by
  intro hm
  have := h.failed_lt _ hm
  simp [nextId] at this

/-- A new task runs, and nothing else changes. -/
theorem Accounted.start (h : s.Accounted failed) (name : String) (body : β) (observed : Bool) :
    (s.start name body observed).Accounted failed := by
  refine ⟨fun id => ?_, fun id hid => ?_, fun id t ht hw => ?_, fun r hr id ha => ?_⟩
  · have hc := h.count id
    have hn := h.nextId_not_mem
    rw [standing_start, isPending_start, start_running, List.map_cons, List.count_cons]
    by_cases hid : id = s.nextId
    · subst hid
      have : s.isPending s.nextId = false := by simp [isPending, nextId]
      simp [this, hn] at hc ⊢
      omega
    · simpa [hid, Ne.symm hid] using hc
  · have := h.failed_lt id hid
    simp only [start_tasks, Array.size_push]
    omega
  · rw [start_tasks, Array.getElem?_push] at ht
    split at ht
    · simp only [Option.some.injEq] at ht
      subst ht
      simp at hw
    · exact h.waiters_pending id t ht hw
  · rw [stateOf_start]
    exact h.ready_settled r hr id ha

/-- A running body goes on: bodies do not count, only whose they are. -/
theorem Accounted.with_running (h : s.Accounted failed) {running : List (Parked β)}
    (hr : running.map (·.id) = s.running.map (·.id)) :
    ({ s with running } : Scheduler β ν).Accounted failed :=
  ⟨fun id => by have := h.count id; rw [← hr] at this; exact this, h.failed_lt, h.waiters_pending,
    h.ready_settled⟩

section Pop

variable {id : TaskId} {body : β} {outer : List (Parked β)}

/-- The place that a body which stops running leaves. -/
theorem Accounted.count_outer (h : s.Accounted failed) (hr : s.running = ⟨id, body⟩ :: outer)
    (x : TaskId) : (outer.map (·.id)).count x + [id].count x + s.standing.count x =
      if s.isPending x = true ∧ x ∉ failed then 1 else 0 := by
  have hc := h.count x
  rw [hr] at hc
  change ([id] ++ outer.map (·.id)).count x + _ = _ at hc
  rw [List.count_append] at hc
  omega

/-- A running body that waits gets a place. -/
theorem Accounted.suspend [Inhabited ν] (h : s.Accounted failed)
    (hr : s.running = ⟨id, body⟩ :: outer) (body' : β) (a : Awaited ν) :
    ({ s with running := outer }.suspend ⟨id, body'⟩ a).1.Accounted failed := by
  refine ⟨fun x => ?_, fun x hx => ?_, fun x t ht hw => ?_, fun r hr' x ha => ?_⟩
  · have hc := h.count_outer hr x
    rw [count_standing_suspend, isPending_suspend, suspend_running]
    have : ({ s with running := outer } : Scheduler β ν).standing = s.standing := rfl
    have hp : ({ s with running := outer } : Scheduler β ν).isPending x = s.isPending x := rfl
    rw [this, hp]
    dsimp only
    omega
  · rw [size_tasks_suspend]
    exact h.failed_lt x hx
  · obtain ⟨t₀, ht₀, hstate, hw' | ⟨-, -, hs⟩⟩ := waiters_suspend _ _ _ ht
    · rw [hstate]
      exact h.waiters_pending x t₀ ht₀ (hw' ▸ hw)
    · rw [hstate, hs]
  · rw [stateOf_suspend]
    obtain hr' | hr' := ready_suspend _ _ _ hr'
    · exact h.ready_settled r hr' x ha
    · exact hr' x ha

/-- A running body that ends loses its place, and its waiters move to the queue. -/
theorem Accounted.settle (h : s.Accounted failed) (hr : s.running = ⟨id, body⟩ :: outer)
    {state : TaskState ν} (hs : state.isSettled = true) :
    ({ s with running := outer }.settle id state).Accounted failed := by
  obtain ⟨hpend, hnf, -⟩ := h.of_running (p := ⟨id, body⟩) (by rw [hr]; simp)
  obtain ⟨t, ht, -⟩ := exists_of_isPending hpend
  have hstate := stateOf_settle_self (s := { s with running := outer }) ht state
  refine ⟨fun x => ?_, fun x hx => ?_, fun x t' ht' hw => ?_, fun r hr' x ha => ?_⟩
  · have hc := h.count_outer hr x
    rw [count_standing_settle, isPending_settle _ _ hs, settle_running]
    have : ({ s with running := outer } : Scheduler β ν).standing = s.standing := rfl
    have hp : ({ s with running := outer } : Scheduler β ν).isPending x = s.isPending x := rfl
    rw [this, hp]
    by_cases hx : x = id
    · subst hx
      simp [hpend, hnf] at hc ⊢
      omega
    · simpa [hx, Ne.symm hx] using hc
  · rw [size_tasks_settle]
    exact h.failed_lt x hx
  · unfold Scheduler.settle at ht'
    simp only [ht, Array.getElem?_modify] at ht'
    split at ht'
    · obtain ⟨t₁, -, rfl⟩ := Option.map_eq_some_iff.mp ht'
      simp at hw
    · exact h.waiters_pending x t' ht' hw
  · by_cases hx : x = id
    · subst hx
      rw [hstate, hs]
    · rw [stateOf_settle_of_ne _ _ hx]
      unfold Scheduler.settle at hr'
      simp only [ht, List.mem_append, List.mem_map] at hr'
      obtain hr' | ⟨p, -, rfl⟩ := hr'
      · exact h.ready_settled r hr' x ha
      · simp only [Awaited.task.injEq] at ha
        exact absurd ha.symm hx

/-- The main task that ends in a fault loses its place. -/
theorem Accounted.mainFails (h : s.Accounted failed) (hr : s.running = ⟨id, body⟩ :: outer) :
    ({ s with running := outer } : Scheduler β ν).Accounted (failed ++ [id]) := by
  obtain ⟨hpend, hnf, -⟩ := h.of_running (p := ⟨id, body⟩) (by rw [hr]; simp)
  refine ⟨fun x => ?_, fun x hx => ?_, h.waiters_pending, h.ready_settled⟩
  · have hc := h.count_outer hr x
    change (outer.map (·.id)).count x + s.standing.count x =
      if s.isPending x = true ∧ x ∉ failed ++ [id] then 1 else 0
    by_cases hx : x = id
    · subst hx
      simp [hpend, hnf] at hc ⊢
      omega
    · simpa [hx, Ne.symm hx] using hc
  · simp only [List.mem_append, List.mem_singleton] at hx
    obtain hx | rfl := hx
    · exact h.failed_lt x hx
    · exact lt_of_isPending hpend

end Pop

/-- The body at the front of the queue runs instead of standing there. -/
theorem Accounted.resume (h : s.Accounted failed) {p : Parked β} {a : Awaited ν}
    {rest : List (Ready β ν)} (hr : s.running = []) (hq : s.ready = ⟨p, a⟩ :: rest) (body' : β)
    (steps : ℕ) :
    ({ s with ready := rest, steps, running := [⟨p.id, body'⟩] } : Scheduler β ν).Accounted
      failed := by
  refine ⟨fun x => ?_, h.failed_lt, h.waiters_pending, fun r hr' => ?_⟩
  · have hc := h.count x
    rw [hr] at hc
    simp only [standing, hq, List.map_cons, List.map_nil, List.count_append, List.count_nil,
      List.count_cons, List.count_nil] at hc ⊢
    change _ = if s.isPending x = true ∧ x ∉ failed then 1 else 0
    omega
  · exact h.ready_settled r (by rw [hq]; exact List.mem_cons_of_mem _ hr')

/-- One move keeps the account. -/
theorem Accounted.step [Inhabited ν] {s' : Scheduler β ν} {e : Event ν} (h : s.Accounted failed)
    (hstep : Step s e s') : s'.Accounted (failed ++ failedMains [e]) := by
  have hsame : ∀ {s' : Scheduler β ν} {e : Event ν}, s'.Accounted failed → failedMains [e] = [] →
      s'.Accounted (failed ++ failedMains [e]) := fun h he => by rwa [he, List.append_nil]
  cases hstep with
  | spawn name body hr => exact hsame (h.start name body false) rfl
  | run name body hr => exact hsame ⟨(h.start name body true).1, (h.start name body true).2,
      (h.start name body true).3, (h.start name body true).4⟩ rfl
  | proceed body' hr => exact hsame (h.with_running (by simp [hr])) rfl
  | child name child parent hr =>
    exact hsame ((h.with_running (by simp [hr])).start name child false) rfl
  | await what body' hr => exact hsame (h.suspend hr body' what) rfl
  | settle state hr hs hm => exact hsame (h.settle hr hs) rfl
  | mainFails f hr hm => exact h.mainFails hr
  | resume body' hr hq hl => exact hsame (h.resume hr hq body' _) rfl
  | limit => exact hsame h rfl
  | drain => exact hsame ⟨h.1, h.2, h.3, h.4⟩ rfl
  | «return» => exact hsame h rfl

theorem Accounted.steps [Inhabited ν] {s' : Scheduler β ν} {es : List (Event ν)}
    (h : s.Accounted failed) (hsteps : Steps s es s') :
    s'.Accounted (failed ++ failedMains es) := by
  induction hsteps with
  | refl => simpa using h
  | snoc _ hstep ih =>
    rw [failedMains_append, ← List.append_assoc]
    exact ih.step hstep

/-- The account says where each task stands. -/
theorem Accounted.placed (h : s.Accounted failed) : s.Placed failed where
  pending_once id t ht hrun hs hf := by
    have hc := h.count id
    have hr : (s.running.map (·.id)).count id = 0 := by
      refine List.count_eq_zero.mpr fun hm => hrun ?_
      obtain ⟨p, hp, rfl⟩ := List.mem_map.mp hm
      exact ⟨p, hp, rfl⟩
    simpa [hr, isPending_eq ht, hs, hf] using hc
  settled_nowhere id t ht _ hs := by
    have hc := h.count id
    simp only [isPending_eq ht, hs] at hc
    simpa using (Nat.add_eq_zero_iff.mp hc).2
  waiters_pending := h.waiters_pending
  ready_settled := h.ready_settled

end Scheduler

namespace Machine

variable {β ν ω : Type} [Inhabited ν] {B : Behaviour β ν ω}

variable {maxSteps : ℕ} {world : ω} {es : List (Event ν)} {m : Machine β ν ω}

theorem Calls.accounted (h : Calls B ⟨.fresh maxSteps, world⟩ es m) :
    m.sched.Accounted (failedMains es) := by
  simpa using (Scheduler.accounted_fresh maxSteps).steps h.steps_fresh.1

/-- Moves that do not end a run keep the account. -/
theorem Faithful.accounted_after {move : Machine β ν ω → Progress (Machine β ν ω)}
    (hf : Faithful B move) {failed : List TaskId} (h : m.sched.Accounted failed) (n : ℕ) :
    (after move n m).sched.Accounted failed := by
  obtain ⟨es, hes, hnf⟩ := hf.after_steps n m
  have := h.steps hes
  rwa [hnf, List.append_nil] at this

/-- Between the calls of a host on a fresh machine, and after any number of moves in a further call,
    each task that runs no body is in its place: a pending one stands in one place, a settled one
    nowhere, only pending tasks have waiters, and what the bodies in the queue wait for is at
    hand. -/
theorem Calls.placed_throughout (h : Calls B ⟨.fresh maxSteps, world⟩ es m) :
    m.sched.Placed (failedMains es) ∧
      (∀ name body n,
        (after (act B) n (start B m name body false)).sched.Placed (failedMains es)) ∧
      (∀ name body n,
        (after (tick B) n (startMain B name body m)).sched.Placed (failedMains es)) ∧
      ∀ n, (after (tick B) n m).sched.Placed (failedMains es) := by
  have hacc := h.accounted
  have hr := h.steps_fresh.2
  have hstart : ∀ name body, (start B m name body false).sched.Accounted (failedMains es) :=
    fun name body => hacc.start name body false
  have hmain : ∀ name body, (startMain B name body m).sched.Accounted (failedMains es) := by
    intro name body
    have := hacc.step (startMain_step B name body hr)
    simpa [failedMains] using this
  exact ⟨hacc.placed, fun name body n => (faithful_act.accounted_after (hstart name body) n).placed,
    fun name body n => (faithful_tick.accounted_after (hmain name body) n).placed,
    fun n => (faithful_tick.accounted_after hacc n).placed⟩

theorem placed_stalled : stalled.sched.Placed [] :=
  (Calls.placed_throughout (.run .none run_selfWait (by simp))).1

end Machine

end CoScript
