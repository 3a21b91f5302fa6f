import CoScript.Proofs.Task.Deadlock
import CoScript.Proofs.Task.Uses

/-!
# Reported rejections

A drain that ends normally reports the tasks that are rejected although nothing ever waited for
them. Whether something waits for a task before or after its end makes no difference, nor in which
drain it ends, nor what else ended before its time.

Results:
* `rejections`, `WaitedFor`: what a history says of rejected tasks.
* `Scheduler.Reported`: the lists of the scheduler agree with its history; a move keeps this.
* `Machine.drains_report`: what a drain adds to the list of unhandled rejections, and that every
  rejected task is accounted for.
-/

namespace CoScript

/-! ## Rejections in a history -/

section History

variable {ν : Type} {es : List (Event ν)} {e : Event ν} {id : TaskId}

/-- The tasks that were rejected, in the order of their ends. -/
def rejections (es : List (Event ν)) : List TaskId :=
  es.filterMap fun
    | .settled id state => if state.isRejected then some id else none
    | _ => none

/-- A body began to wait for a task that had been started. -/
def WaitedFor (es : List (Event ν)) (id : TaskId) : Prop :=
  ∃ isMain p, [.started id isMain, .awaited p (.task id)].Sublist es

/-- What is neither a start nor a wait for a task nor an end. -/
def Event.IsPlain (e : Event ν) : Prop :=
  (∀ id isMain, e ≠ .started id isMain) ∧ (∀ p id, e ≠ .awaited p (.task id)) ∧
    ∀ id state, e ≠ .settled id state

theorem rejections_append (es es' : List (Event ν)) :
    rejections (es ++ es') = rejections es ++ rejections es' :=
  List.filterMap_append

theorem rejections_concat (he : ∀ id state, e = .settled id state → state.isRejected = false) :
    rejections (es ++ [e]) = rejections es := by
  rw [rejections_append]
  cases e with
  | settled id state => simp [rejections, he id state rfl]
  | _ => exact List.append_nil _

theorem rejections_settled (es : List (Event ν)) (id : TaskId) (state : TaskState ν) :
    rejections (es ++ [.settled id state]) =
      rejections es ++ if state.isRejected then [id] else [] := by
  rw [rejections_append]
  cases hstate : state.isRejected <;> simp [rejections, hstate]

/-- A task is waited for if it was before, or if a body begins to wait for it now. -/
theorem waitedFor_concat : WaitedFor (es ++ [e]) id ↔
    WaitedFor es id ∨ ∃ p, e = .awaited p (.task id) ∧ ∃ isMain, .started id isMain ∈ es := by
  constructor
  · rintro ⟨isMain, p, h⟩
    obtain ⟨l, l', hl, hes, he⟩ := List.sublist_append_iff.mp h
    obtain rfl | rfl := List.sublist_singleton.mp he
    · rw [List.append_nil] at hl
      exact .inl ⟨isMain, p, hl ▸ hes⟩
    · change [Event.started id isMain] ++ [.awaited p (.task id)] = l ++ [e] at hl
      obtain ⟨rfl, he⟩ := List.append_inj' hl rfl
      exact .inr ⟨p, (List.singleton_inj.mp he).symm, isMain, List.singleton_sublist.mp hes⟩
  · rintro (⟨isMain, p, h⟩ | ⟨p, rfl, isMain, h⟩)
    · exact ⟨isMain, p, h.trans (List.sublist_append_left _ _)⟩
    · exact ⟨isMain, p, (List.singleton_sublist.mpr h).append (List.Sublist.refl _)⟩

end History

namespace Scheduler

variable {β ν : Type} {s s' : Scheduler β ν}

/-! ## Observed tasks -/

theorem isObserved_eq {id : TaskId} {t : Task β ν} (h : s.tasks[id.index]? = some t) :
    s.isObserved id = t.observed := by
  simp [isObserved, h]

theorem isObserved_start (s : Scheduler β ν) (name : String) (body : β) (observed : Bool)
    (x : TaskId) : (s.start name body observed).isObserved x =
      if x = s.nextId then observed else s.isObserved x := by
  by_cases hx : x.index = s.tasks.size
  · have : x = s.nextId := TaskId.index_inj.mp hx
    simp [isObserved, this, nextId]
  · have : x ≠ s.nextId := by rintro rfl; exact hx rfl
    simp [isObserved, Array.getElem?_push, hx, this]

theorem isObserved_settle (s : Scheduler β ν) (id : TaskId) (state : TaskState ν) (x : TaskId) :
    (s.settle id state).isObserved x = s.isObserved x := by
  unfold settle
  split
  · rfl
  · simp only [isObserved, Array.getElem?_modify]
    by_cases hx : id.index = x.index <;> cases s.tasks[x.index]? <;> simp [hx]

/-- A change that makes a task observed, if it exists, makes no other so. -/
theorem isObserved_modify (s : Scheduler β ν) (id : TaskId) (f : Task β ν → Task β ν)
    (hf : ∀ t, (f t).observed = true) (x : TaskId) : (s.modify id f).isObserved x = true ↔
      s.isObserved x = true ∨ id = x ∧ x.index < s.tasks.size := by
  simp only [isObserved, modify, Array.getElem?_modify]
  by_cases hx : id = x
  · subst hx
    cases ht : s.tasks[id.index]? with
    | none =>
      have := Array.getElem?_eq_none_iff.mp ht
      simp [this]
    | some t =>
      have := (Array.getElem?_eq_some_iff.mp ht).1
      simp [hf, this]
  · have : id.index ≠ x.index := fun h => hx (TaskId.index_inj.mp h)
    simp [this, hx]

/-- A task is observed if it was, or if a body begins to wait for it and it exists. -/
theorem isObserved_suspend [Inhabited ν] (s : Scheduler β ν) (p : Parked β) (a : Awaited ν)
    (x : TaskId) : (s.suspend p a).1.isObserved x = true ↔
      s.isObserved x = true ∨ a = .task x ∧ x.index < s.tasks.size := by
  cases a with
  | value v => simp [suspend, isObserved, enqueue]
  | task id =>
    rw [Awaited.task.injEq]
    cases ht : s.tasks[id.index]? with
    | none =>
      have hge := Array.getElem?_eq_none_iff.mp ht
      have hsame : (s.suspend p (.task id)).1.isObserved x = s.isObserved x := by
        simp [suspend, ht, isObserved, enqueue]
      have hne : ¬ (id = x ∧ x.index < s.tasks.size) := by
        rintro ⟨rfl, hlt⟩
        omega
      simp [hsame, hne]
    | some t =>
      cases hs : t.state.isSettled with
      | true =>
        have hsame : (s.suspend p (.task id)).1.isObserved x =
            (s.modify id fun t => { t with observed := true }).isObserved x := by
          simp [suspend, ht, hs, isObserved, enqueue]
        rw [hsame]
        exact isObserved_modify s id _ (fun _ => rfl) x
      | false =>
        have hsame : (s.suspend p (.task id)).1 =
            s.modify id fun t => { t with observed := true, waiters := t.waiters ++ [p] } := by
          simp [suspend, ht, hs]
        rw [hsame]
        exact isObserved_modify s id _ (fun _ => rfl) x

/-! ## The lists -/

theorem lists_suspend [Inhabited ν] (s : Scheduler β ν) (p : Parked β) (a : Awaited ν) :
    (s.suspend p a).1.rejected = s.rejected ∧ (s.suspend p a).1.unhandled = s.unhandled := by
  obtain ⟨v, he⟩ | ⟨_, _, _, _, _, he⟩ | ⟨_, _, _, _, _, he⟩ := suspend_cases s p a <;>
    rw [he] <;> exact ⟨rfl, rfl⟩

theorem unhandled_settle (s : Scheduler β ν) (id : TaskId) (state : TaskState ν) :
    (s.settle id state).unhandled = s.unhandled := by
  unfold settle
  split <;> rfl

theorem rejected_settle {id : TaskId} {t : Task β ν} (ht : s.tasks[id.index]? = some t)
    (state : TaskState ν) : (s.settle id state).rejected =
      s.rejected ++ if state.isRejected && t.waiters.isEmpty then [id] else [] := by
  simp only [settle, ht]
  split <;> simp

theorem isRejected_of_isPending {id : TaskId} (h : s.isPending id = true) :
    (s.stateOf id).isRejected = false := by
  obtain ⟨t, ht, hpending⟩ := exists_of_isPending h
  simp only [stateOf, ht]
  cases hstate : t.state with
  | pending => rfl
  | _ => simp [hstate, TaskState.isSettled] at hpending

/-! ## The lists agree with the history -/

/-- What the history says of rejected tasks and of what waits for tasks agrees with the scheduler;
    `rejected` lists all rejections that are neither observed nor reported. -/
structure Reported (es : List (Event ν)) (s : Scheduler β ν) : Prop where
  accounted : ∃ failed, s.Accounted failed
  started_iff : ∀ id : TaskId, (∃ isMain, .started id isMain ∈ es) ↔ id.index < s.tasks.size
  observed_iff : ∀ id, s.isObserved id = true ↔ .started id true ∈ es ∨ WaitedFor es id
  waiters_observed : ∀ (id : TaskId) t, s.tasks[id.index]? = some t → t.waiters ≠ [] →
    t.observed = true
  rejected_iff : ∀ id, id ∈ rejections es ↔ (s.stateOf id).isRejected = true
  nodup : (rejections es).Nodup
  rejected_mem : ∀ id ∈ s.rejected, id ∈ rejections es
  listed : s.rejected.filter (!s.isObserved ·) =
    (rejections es).filter fun id => !s.isObserved id && !s.unhandled.contains id
  unhandled_nodup : s.unhandled.Nodup
  unhandled_rejected : ∀ id ∈ s.unhandled, (s.stateOf id).isRejected = true

theorem reported_fresh (maxSteps : ℕ) : Reported [] (fresh maxSteps : Scheduler β ν) where
  accounted := ⟨[], accounted_fresh maxSteps⟩
  started_iff := by simp [fresh]
  observed_iff := by simp [fresh, isObserved, WaitedFor]
  waiters_observed := by simp [fresh]
  rejected_iff := by simp [rejections, fresh, stateOf, TaskState.isRejected]
  nodup := List.nodup_nil
  rejected_mem := by simp [fresh]
  listed := rfl
  unhandled_nodup := List.nodup_nil
  unhandled_rejected := by simp [fresh]

variable {es : List (Event ν)} {e : Event ν}

/-- Only the tasks and the lists count. -/
theorem Reported.same (h : Reported es s) (hacc : ∃ failed, s'.Accounted failed)
    (htasks : s'.tasks = s.tasks) (hrejected : s'.rejected = s.rejected)
    (hunhandled : s'.unhandled = s.unhandled) : Reported es s' := by
  have hobs : ∀ id, s'.isObserved id = s.isObserved id := fun id => by simp [isObserved, htasks]
  have hstate : ∀ id, s'.stateOf id = s.stateOf id := fun id => by simp [stateOf, htasks]
  refine ⟨hacc, ?_, ?_, ?_, ?_, h.nodup, ?_, ?_, ?_, ?_⟩
  · rw [htasks]
    exact h.started_iff
  · simp only [hobs]
    exact h.observed_iff
  · rw [htasks]
    exact h.waiters_observed
  · simp only [hstate]
    exact h.rejected_iff
  · rw [hrejected]
    exact h.rejected_mem
  · simp only [hrejected, hobs, hunhandled]
    exact h.listed
  · rw [hunhandled]
    exact h.unhandled_nodup
  · simp only [hunhandled, hstate]
    exact h.unhandled_rejected

/-- A plain event says nothing of tasks and lists. -/
theorem Reported.plain (h : Reported es s) (he : e.IsPlain) : Reported (es ++ [e]) s := by
  obtain ⟨hstart, hawait, hsettle⟩ := he
  have hrej : rejections (es ++ [e]) = rejections es :=
    rejections_concat fun id state hid => absurd hid (hsettle id state)
  have hmem : ∀ id isMain, .started id isMain ∈ es ++ [e] ↔ .started id isMain ∈ es :=
    fun id isMain => by simp [(hstart id isMain).symm]
  refine ⟨h.accounted, fun id => ?_, fun id => ?_, h.waiters_observed, ?_, ?_, ?_, ?_,
    h.unhandled_nodup, h.unhandled_rejected⟩
  · simp only [hmem]
    exact h.started_iff id
  · rw [hmem, h.observed_iff, waitedFor_concat]
    simp [hawait]
  · rw [hrej]
    exact h.rejected_iff
  · rw [hrej]
    exact h.nodup
  · rw [hrej]
    exact h.rejected_mem
  · rw [hrej]
    exact h.listed

/-- The lists still agree when more tasks are observed. -/
theorem Reported.listed_mono (h : Reported es s) {obs : TaskId → Bool}
    (hobs : ∀ id ∈ rejections es, s.isObserved id = true → obs id = true) :
    s.rejected.filter (!obs ·) =
      (rejections es).filter fun id => !obs id && !s.unhandled.contains id := by
  calc s.rejected.filter (!obs ·)
      = (s.rejected.filter (!s.isObserved ·)).filter (!obs ·) := by
        rw [List.filter_filter]
        refine List.filter_congr fun id hid => ?_
        have := hobs id (h.rejected_mem id hid)
        cases hs : s.isObserved id <;> simp_all
    _ = ((rejections es).filter fun id => !s.isObserved id && !s.unhandled.contains id).filter
          (!obs ·) := by rw [h.listed]
    _ = (rejections es).filter fun id => !obs id && !s.unhandled.contains id := by
        rw [List.filter_filter]
        refine List.filter_congr fun id hid => ?_
        have := hobs id hid
        cases hs : s.isObserved id <;> simp_all

/-- The start of a task. -/
theorem Reported.start (h : Reported es s) (name : String) (body : β) (isMain : Bool) :
    Reported (es ++ [.started s.nextId isMain]) (s.start name body isMain) := by
  have hmem : ∀ id b, .started id b ∈ es ++ [.started s.nextId isMain] ↔
      .started id b ∈ es ∨ id = s.nextId ∧ b = isMain := fun id b => by simp
  have hrej : rejections (es ++ [.started s.nextId isMain]) = rejections es :=
    rejections_concat (by simp)
  have hnew : ∀ b, .started s.nextId b ∉ es := fun b hb => by
    have := (h.started_iff s.nextId).mp ⟨b, hb⟩
    simp [nextId] at this
  -- a task that has ended is not the new one
  have hnotNew : ∀ id, (s.stateOf id).isRejected = true → id ≠ s.nextId := by
    rintro id hid rfl
    simp [stateOf, nextId, TaskState.isRejected] at hid
  have hobs : ∀ id ∈ rejections es,
      (s.start name body isMain).isObserved id = s.isObserved id := fun id hid => by
    rw [isObserved_start, if_neg (hnotNew id ((h.rejected_iff id).mp hid))]
  obtain ⟨failed, hacc⟩ := h.accounted
  refine ⟨⟨failed, hacc.start name body isMain⟩, fun id => ?_, fun id => ?_, fun id t ht hw => ?_,
    fun id => ?_, ?_, ?_, ?_, h.unhandled_nodup, fun id hid => ?_⟩
  · simp only [hmem, exists_or, h.started_iff id, start_tasks, Array.size_push,
      Nat.lt_succ_iff_lt_or_eq]
    refine or_congr Iff.rfl ⟨?_, fun hid => ⟨isMain, TaskId.index_inj.mp hid, rfl⟩⟩
    rintro ⟨-, rfl, -⟩
    rfl
  · rw [isObserved_start, hmem, waitedFor_concat]
    by_cases hid : id = s.nextId
    · subst hid
      have hno : ¬ WaitedFor es s.nextId := by
        rintro ⟨b, p, hsub⟩
        exact hnew b (hsub.subset (by simp))
      simp [hnew, hno]
    · simp [hid, h.observed_iff]
  · rw [start_tasks, Array.getElem?_push] at ht
    split at ht
    · simp only [Option.some.injEq] at ht
      subst ht
      simp at hw
    · exact h.waiters_observed id t ht hw
  · rw [hrej, stateOf_start]
    exact h.rejected_iff id
  · rw [hrej]
    exact h.nodup
  · rw [hrej]
    exact h.rejected_mem
  · rw [hrej]
    exact h.listed_mono fun id hid ho => (hobs id hid).trans ho
  · rw [stateOf_start]
    exact h.unhandled_rejected id hid

section Pop

variable [Inhabited ν] {id : TaskId} {body : β} {outer : List (Parked β)}

/-- A running body that waits. -/
theorem Reported.suspend (h : Reported es s) (hr : s.running = ⟨id, body⟩ :: outer) (body' : β)
    (a : Awaited ν) : Reported (es ++ [.awaited id a])
      ({ s with running := outer }.suspend ⟨id, body'⟩ a).1 := by
  obtain ⟨failed, hacc⟩ := h.accounted
  have hobs := isObserved_suspend { s with running := outer } ⟨id, body'⟩ a
  have hrej : rejections (es ++ [.awaited id a]) = rejections es := rejections_concat (by simp)
  have hlists := lists_suspend { s with running := outer } ⟨id, body'⟩ a
  refine ⟨⟨failed, hacc.suspend hr body' a⟩, fun x => ?_, fun x => ?_, fun x t ht hw => ?_,
    fun x => ?_, ?_, ?_, ?_, ?_, fun x hx => ?_⟩
  · rw [size_tasks_suspend]
    simpa using h.started_iff x
  · rw [hobs, waitedFor_concat, h.started_iff]
    have hold : ({ s with running := outer } : Scheduler β ν).isObserved x = s.isObserved x := rfl
    rw [hold, h.observed_iff]
    simp [or_assoc]
  · rw [← isObserved_eq ht, hobs]
    obtain ⟨t₀, ht₀, -, hw' | ⟨-, ha, -⟩⟩ := waiters_suspend _ _ _ ht
    · have : s.tasks[x.index]? = some t₀ := ht₀
      exact .inl ((isObserved_eq this).trans (h.waiters_observed x t₀ this (hw' ▸ hw)))
    · exact .inr ⟨ha, (Array.getElem?_eq_some_iff.mp ht₀).1⟩
  · rw [hrej, stateOf_suspend]
    exact h.rejected_iff x
  · rw [hrej]
    exact h.nodup
  · rw [hrej, hlists.1]
    exact h.rejected_mem
  · rw [hrej, hlists.1, hlists.2]
    exact h.listed_mono fun x _ hx => (hobs x).mpr (.inl hx)
  · rw [hlists.2]
    exact h.unhandled_nodup
  · rw [hlists.2] at hx
    rw [stateOf_suspend]
    exact h.unhandled_rejected x hx

omit [Inhabited ν] in
/-- A task that is rejected at its end is listed as such unless a body waits for it. -/
theorem Reported.listed_settle (h : Reported es s) (hnot : id ∉ s.unhandled) {t : Task β ν}
    (ht : s.tasks[id.index]? = some t) (state : TaskState ν) :
    ({ s with running := outer }.settle id state).rejected.filter (!s.isObserved ·) =
      (rejections (es ++ [.settled id state])).filter
        fun x => !s.isObserved x && !s.unhandled.contains x := by
  rw [rejected_settle (s := { s with running := outer }) ht, rejections_settled, List.filter_append,
    List.filter_append, h.listed]
  refine congrArg _ ?_
  cases state.isRejected with
  | false => rfl
  | true =>
    cases ho : s.isObserved id with
    | true => simp [ho, List.filter_eq_nil_iff]
    | false =>
      -- a task that bodies wait for is observed
      have hempty : t.waiters = [] := by
        by_contra hw
        rw [isObserved_eq ht, h.waiters_observed id t ht hw] at ho
        cases ho
      simp [ho, hempty, hnot]

omit [Inhabited ν] in
/-- A running body that ends. -/
theorem Reported.settle (h : Reported es s) (hr : s.running = ⟨id, body⟩ :: outer)
    {state : TaskState ν} (hs : state.isSettled = true) :
    Reported (es ++ [.settled id state]) ({ s with running := outer }.settle id state) := by
  obtain ⟨failed, hacc⟩ := h.accounted
  obtain ⟨hpend, -, -⟩ := hacc.of_running (p := ⟨id, body⟩) (by rw [hr]; simp)
  obtain ⟨t, ht, -⟩ := exists_of_isPending hpend
  -- up to now the task was pending, so it is in no list
  have hpending := isRejected_of_isPending hpend
  have hnot : id ∉ rejections es := fun hid => by
    rw [h.rejected_iff, hpending] at hid
    cases hid
  have hnotUnhandled : id ∉ s.unhandled := fun hid => by
    have hrejected := h.unhandled_rejected id hid
    rw [hpending] at hrejected
    cases hrejected
  have hself := stateOf_settle_self (s := { s with running := outer }) ht state
  have hother : ∀ x, x ≠ id → ({ s with running := outer }.settle id state).stateOf x =
      s.stateOf x := fun x hx => stateOf_settle_of_ne _ state hx
  have hobs : ∀ x, ({ s with running := outer }.settle id state).isObserved x = s.isObserved x :=
    isObserved_settle _ id state
  have hunhandled : ({ s with running := outer }.settle id state).unhandled = s.unhandled :=
    unhandled_settle _ id state
  refine ⟨⟨failed, hacc.settle hr hs⟩, fun x => ?_, fun x => ?_, fun x t' ht' hw => ?_,
    fun x => ?_, ?_, fun x hx => ?_, ?_, ?_, fun x hx => ?_⟩
  · rw [size_tasks_settle]
    simpa using h.started_iff x
  · rw [hobs, h.observed_iff, waitedFor_concat]
    simp
  · by_cases hx : x = id
    · subst hx
      simp only [Scheduler.settle, ht, Array.getElem?_modify, if_true, Option.map_some,
        Option.some.injEq] at ht'
      subst ht'
      simp at hw
    · rw [getElem?_settle_of_ne _ _ hx] at ht'
      exact h.waiters_observed x t' ht' hw
  · rw [rejections_settled, List.mem_append]
    by_cases hx : x = id
    · subst hx
      rw [hself]
      cases state.isRejected <;> simp [hnot]
    · rw [hother x hx, ← h.rejected_iff x]
      cases state.isRejected <;> simp [hx]
  · rw [rejections_settled]
    refine List.Nodup.append h.nodup (by split <;> simp) ?_
    split <;> simp [hnot]
  · rw [rejected_settle (s := { s with running := outer }) ht, List.mem_append] at hx
    rw [rejections_settled, List.mem_append]
    refine hx.imp (h.rejected_mem x) fun hx => ?_
    cases hstate : state.isRejected <;> simp [hstate] at hx ⊢
    exact hx.2
  · simp only [hobs, hunhandled]
    exact h.listed_settle hnotUnhandled ht state
  · rw [hunhandled]
    exact h.unhandled_nodup
  · rw [hunhandled] at hx
    have hne : x ≠ id := fun heq => hnotUnhandled (heq ▸ hx)
    rw [hother x hne]
    exact h.unhandled_rejected x hx

end Pop

/-- All running bodies are dropped. -/
theorem Accounted.dropped {failed : List TaskId} (h : s.Accounted failed) :
    ({ s with running := [] } : Scheduler β ν).Accounted (failed ++ s.running.map (·.id)) := by
  refine ⟨fun id => ?_, fun id hid => ?_, h.waiters_pending, h.ready_settled⟩
  · have hc := h.count id
    change 0 + s.standing.count id =
      if s.isPending id = true ∧ id ∉ failed ++ s.running.map (·.id) then 1 else 0
    by_cases hrun : id ∈ s.running.map (·.id)
    · have := List.count_pos_iff.mpr hrun
      simp only [List.mem_append, hrun, or_true, not_true, and_false, if_false]
      split at hc <;> omega
    · rw [List.count_eq_zero.mpr hrun] at hc
      simpa [hrun] using hc
  · obtain hid | hid := List.mem_append.mp hid
    · exact h.failed_lt id hid
    · obtain ⟨p, hp, rfl⟩ := List.mem_map.mp hid
      exact lt_of_isPending (h.of_running hp).1

/-- The report at the end of a drain. -/
theorem Reported.report (h : Reported es s) : Reported (es ++ [.drained]) s.report := by
  have hrej : rejections (es ++ [.drained]) = rejections es := rejections_concat (by simp)
  obtain ⟨failed, hacc⟩ := h.accounted
  have hnew : ∀ id, id ∈ s.rejected.filter (!s.isObserved ·) ↔
      id ∈ rejections es ∧ s.isObserved id = false ∧ id ∉ s.unhandled := fun id => by
    rw [h.listed]
    simp
  have hreport : s.report.unhandled = s.unhandled ++ s.rejected.filter (!s.isObserved ·) := rfl
  have hobs : ∀ id, s.report.isObserved id = s.isObserved id := fun _ => rfl
  refine ⟨⟨failed, hacc.1, hacc.2, hacc.3, hacc.4⟩, fun id => ?_, fun id => ?_, h.waiters_observed,
    fun id => ?_, ?_, fun id hid => ?_, ?_, ?_, fun id hid => ?_⟩
  · have htasks : s.report.tasks = s.tasks := rfl
    simpa [htasks] using h.started_iff id
  · rw [hobs, h.observed_iff, waitedFor_concat]
    simp
  · rw [hrej]
    exact h.rejected_iff id
  · rw [hrej]
    exact h.nodup
  · rw [hrej]
    exact h.rejected_mem id (List.mem_of_mem_filter hid)
  · -- what was listed and not observed has moved, so neither side is left with anything
    have hleft : s.report.rejected.filter (!s.report.isObserved ·) = [] := by
      refine List.filter_eq_nil_iff.mpr fun id hid => ?_
      have := List.of_mem_filter hid
      simpa [hobs] using this
    have hright : (rejections es).filter
        (fun id => !s.report.isObserved id && !s.report.unhandled.contains id) = [] := by
      refine List.filter_eq_nil_iff.mpr fun id hid hkept => ?_
      have hfree : s.isObserved id = false := by
        simpa [hobs] using (Bool.and_eq_true_iff.mp hkept).1
      have hout : id ∉ s.report.unhandled := by simpa using (Bool.and_eq_true_iff.mp hkept).2
      rw [hreport, List.mem_append, not_or] at hout
      exact hout.2 ((hnew id).mpr ⟨hid, hfree, hout.1⟩)
    rw [hrej, hleft, hright]
  · rw [hreport]
    refine List.Nodup.append h.unhandled_nodup ?_ fun id hid hnewid => ((hnew id).mp hnewid).2.2 hid
    rw [h.listed]
    exact h.nodup.filter _
  · obtain hid | hid := List.mem_append.mp hid
    · exact h.unhandled_rejected id hid
    · exact (h.rejected_iff id).mp ((hnew id).mp hid).1

/-- No move makes the lists disagree with the history. -/
theorem lasting_reported [Inhabited ν] :
    Lasting (Reported : List (Event ν) → Scheduler β ν → Prop) where
  step {es e s s'} h hstep := by
    have hacc : ∃ failed, s'.Accounted failed := by
      obtain ⟨failed, hacc⟩ := h.accounted
      exact ⟨_, hacc.step hstep⟩
    cases hstep with
    | spawn name body hr => exact h.start name body false
    | run name body hr => exact (h.start name body true).same hacc rfl rfl rfl
    | child name child parent hr => exact (h.start name child false).same hacc rfl rfl rfl
    | await what body' hr => exact h.suspend hr body' what
    | settle state hr hs hm => exact h.settle hr hs
    | drain hr hq => exact h.report
    | _ => exact (h.plain (by simp [Event.IsPlain])).same hacc rfl rfl rfl
  dropped {es s} h := by
    obtain ⟨failed, hacc⟩ := h.accounted
    exact (h.plain (by simp [Event.IsPlain])).same ⟨_, hacc.dropped⟩ rfl rfl rfl

/-! ## Lists that were cleared -/

/-- A scheduler that lists rejections again that a host has cleared, before those that it lists. -/
def relist (s : Scheduler β ν) (cleared : List TaskId) : Scheduler β ν :=
  { s with unhandled := cleared ++ s.unhandled }

theorem relist_report (s : Scheduler β ν) (cleared : List TaskId) :
    s.report.relist cleared = (s.relist cleared).report := by
  simp [relist, report, isObserved]

theorem relist_settle (s : Scheduler β ν) (cleared : List TaskId) (id : TaskId)
    (state : TaskState ν) :
    (s.settle id state).relist cleared = (s.relist cleared).settle id state := by
  unfold settle relist
  cases s.tasks[id.index]? <;> rfl

theorem relist_suspend [Inhabited ν] (s : Scheduler β ν) (cleared : List TaskId) (p : Parked β)
    (a : Awaited ν) :
    (s.suspend p a).1.relist cleared = ((s.relist cleared).suspend p a).1 := by
  cases a with
  | value v => rfl
  | task id =>
    simp only [suspend, relist]
    cases s.tasks[id.index]? with
    | none => rfl
    | some t => cases ht : t.state.isSettled <;> simp [enqueue, modify, ht]

/-- No step depends on what is listed as unhandled. -/
theorem Step.relist [Inhabited ν] (h : Step s e s') (cleared : List TaskId) :
    Step (s.relist cleared) e (s'.relist cleared) := by
  cases h with
  | spawn name body hr => exact .spawn name body hr
  | run name body hr => exact .run name body hr
  | proceed body' hr => exact .proceed body' hr
  | child name child parent hr => exact .child name child parent hr
  | await what body' hr =>
    rw [relist_suspend]
    exact .await what body' hr
  | settle state hr hs hm =>
    rw [relist_settle]
    exact .settle state hr hs hm
  | mainFails f hr hm => exact .mainFails f hr hm
  | resume body' hr hq hl => exact .resume body' hr hq hl
  | limit hr hq hl => exact .limit hr hq hl
  | drain hr hq =>
    rw [relist_report]
    exact .drain hr hq
  | «return» hr hm hs => exact .return hr hm hs

/-- What no move takes away from a scheduler, it does not take away from one that lists more. -/
theorem Lasting.relist [Inhabited ν] {I : List (Event ν) → Scheduler β ν → Prop} (h : Lasting I)
    (cleared : List TaskId) : Lasting fun es s => I es (s.relist cleared) :=
  ⟨fun hi hstep => h.step hi (hstep.relist cleared), fun hi => h.dropped hi⟩

/-! ## What a drain reports -/

/-- Only a report changes what is listed as unhandled. -/
theorem Step.unhandled_eq [Inhabited ν] {e : Event ν} (h : Step s e s')
    (hbusy : s.running ≠ [] ∨ s.ready ≠ []) : s'.unhandled = s.unhandled := by
  cases h with
  | await what body' hr => exact (lists_suspend _ _ what).2
  | settle state hr hs hm => exact unhandled_settle _ _ state
  | drain hr hq => simp [hr, hq] at hbusy
  | _ => rfl

/-- What a drain at the end of a history adds to the list of unhandled rejections: just the tasks
    that are rejected, were not started by a run, were never waited for and are not listed yet, in
    the order in which they were rejected. So each rejected task was started by a run, was waited
    for, or is listed once. -/
structure Reports (es : List (Event ν)) (s s' : Scheduler β ν) : Prop where
  rejected_iff : ∀ id, id ∈ rejections es ↔ (s'.stateOf id).isRejected = true
  nodup : (rejections es).Nodup
  added : ∃ new, s'.unhandled = s.unhandled ++ new ∧ new.Sublist (rejections es) ∧
    ∀ id, id ∈ new ↔ (s'.stateOf id).isRejected = true ∧ .started id true ∉ es ∧
      ¬ WaitedFor es id ∧ id ∉ s.unhandled
  all : ∀ id, (s'.stateOf id).isRejected = true →
    .started id true ∈ es ∨ WaitedFor es id ∨ s'.unhandled.count id = 1

/-- Of what comes before a drain only the list of unhandled rejections counts. -/
theorem Reports.of_unhandled {s₁ : Scheduler β ν} (h : Reports es s s')
    (hu : s.unhandled = s₁.unhandled) : Reports es s₁ s' := by
  obtain ⟨hrej, hnodup, hadded, hall⟩ := h
  exact ⟨hrej, hnodup, hu ▸ hadded, hall⟩

/-- When the lists agree with the history, a report adds what it should. -/
theorem Reported.reports (h : Reported es s) : Reports (es ++ [.drained]) s s.report := by
  have hrej : rejections (es ++ [.drained]) = rejections es := rejections_concat (by simp)
  have hmain : ∀ id, .started id true ∈ es ++ [.drained] ↔ .started id true ∈ es := by simp
  have hwaited : ∀ id, WaitedFor (es ++ [.drained]) id ↔ WaitedFor es id := fun id => by
    simp [waitedFor_concat]
  have hstate : ∀ id, s.report.stateOf id = s.stateOf id := fun _ => rfl
  have hnew : ∀ id, id ∈ s.rejected.filter (!s.isObserved ·) ↔
      (s.stateOf id).isRejected = true ∧ .started id true ∉ es ∧ ¬ WaitedFor es id ∧
        id ∉ s.unhandled := fun id => by
    have hfree : s.isObserved id = false ↔ .started id true ∉ es ∧ ¬ WaitedFor es id := by
      rw [← Bool.not_eq_true, h.observed_iff, not_or]
    rw [h.listed, List.mem_filter, h.rejected_iff]
    simp [hfree, and_assoc]
  refine ⟨fun id => by rw [hrej, hstate, h.rejected_iff], by rw [hrej]; exact h.nodup,
    ⟨s.rejected.filter (!s.isObserved ·), rfl, ?_, fun id => ?_⟩, fun id hid => ?_⟩
  · rw [hrej, h.listed]
    exact List.filter_sublist
  · rw [hnew, hmain, hwaited, hstate]
  · rw [hmain, hwaited]
    by_cases ho : .started id true ∈ es ∨ WaitedFor es id
    · exact ho.imp_right .inl
    · rw [not_or] at ho
      refine .inr (.inr (List.count_eq_one_of_mem h.report.unhandled_nodup ?_))
      by_cases hu : id ∈ s.unhandled
      · exact List.mem_append_left _ hu
      · exact List.mem_append_right _ ((hnew id).mpr ⟨hid, ho.1, ho.2, hu⟩)

end Scheduler

namespace Machine

variable {β ν ω : Type} [Inhabited ν] {B : Behaviour β ν ω} {m m' : Machine β ν ω} {fuel : ℕ}

/-! ## Moves leave the list of unhandled rejections alone -/

/-- A way to move that reports nothing. -/
def Unreporting (move : Machine β ν ω → Progress (Machine β ν ω)) : Prop :=
  ∀ {m m' : Machine β ν ω}, (move m = .next m' ∨ ∃ why, move m = .halted why m') →
    m'.sched.unhandled = m.sched.unhandled

theorem unreporting_act : Unreporting (act B) := by
  intro m m' h
  have hbusy : m.sched.running ≠ [] := by
    intro hr
    simp only [act, hr] at h
    simp at h
  obtain h | ⟨why, h⟩ := h
  · exact (act_next h).unhandled_eq (.inl hbusy)
  · cases why with
    | aborted => rw [(act_aborted h).2]
    | fault f => exact (act_fault h).1.unhandled_eq (.inl hbusy)

theorem unreporting_tick : Unreporting (tick B) := by
  intro m m' h
  unfold tick at h
  split at h
  · rename_i hr
    have hr := List.isEmpty_iff.mp hr
    obtain h | ⟨why, h⟩ := h
    · refine (dispatch_next hr h).unhandled_eq (.inr fun hq => ?_)
      simp [dispatch, Scheduler.next?, hq] at h
    · rw [(dispatch_halted hr h).2]
  · exact unreporting_act h

theorem Unreporting.iterate {move : Machine β ν ω → Progress (Machine β ν ω)}
    (hu : Unreporting move) (hf : Faithful B move) {out : Except Halt Unit}
    (h : iterate move fuel m = some (out, m')) : m'.sched.unhandled = m.sched.unhandled := by
  induction fuel, m, h using iterate_induction with
  | next fuel m m₁ hmove _ ih => exact ih.trans (hu (.inl hmove))
  | idle fuel m hmove => rw [(hf.idle hmove).1]
  | halted fuel m why hmove => exact hu (.inr ⟨why, hmove⟩)

/-! ## Drains report -/

variable {maxSteps : ℕ} {world : ω} {es : List (Event ν)}

/-- A drain that ends normally reports what nothing has waited for since the beginning. -/
theorem reports_drain (cleared : List TaskId) (h : (m.sched.relist cleared).Reported es)
    (hm : m.sched.MainOutermost) (hd : drain B fuel m = some (.ok (), m')) :
    Scheduler.Reports (es ++ drainEvents B fuel m) (m.sched.relist cleared)
      (m'.sched.relist cleared) := by
  obtain ⟨m₁, hi, -, -, hsched, hevents⟩ := drain_eq_ok hd
  have hrests := rests_iterate
    (Scheduler.lasting_reported.relist cleared) faithful_tick tick_aborted
    h hm hi
  have hsame : (m₁.sched.relist cleared).unhandled = (m.sched.relist cleared).unhandled :=
    congrArg (cleared ++ ·) (unreporting_tick.iterate faithful_tick hi)
  rw [hevents, hsched, ← List.append_assoc, Scheduler.relist_report]
  exact hrests.holds.reports.of_unhandled hsame

/-- A run whose drain ends normally reports what nothing has waited for since the beginning. -/
theorem reports_run (cleared : List TaskId) {name : String} {body : β}
    (h : Rests (fun es (s : Scheduler β ν) => (s.relist cleared).Reported es) es m.sched)
    (hd : drain B fuel (startMain B name body m) = some (.ok (), m')) :
    Scheduler.Reports
      (es ++ .started m.sched.nextId true :: drainEvents B fuel (startMain B name body m))
      (m.sched.relist cleared) (m'.sched.relist cleared) := by
  have hstart := startMain_step B name body h.running_nil
  have hreports := reports_drain cleared ((Scheduler.lasting_reported.relist cleared).step h.holds
    hstart) (h.mainOutermost.step hstart) hd
  rw [List.append_assoc] at hreports
  exact hreports.of_unhandled rfl

/-- Whatever bodies do and however earlier calls ended: each drain that ends normally, and each run
    whose drain does, adds to the list of unhandled rejections just the tasks that were rejected up
    to then without being waited for, and nothing else changes the list. -/
theorem drains_report (h : Uses B ⟨.fresh maxSteps, world⟩ es m) :
    (∀ fuel m', drain B fuel m = some (.ok (), m') →
      Scheduler.Reports (es ++ drainEvents B fuel m) m.sched m'.sched) ∧
    (∀ fuel name body m', drain B fuel (startMain B name body m) = some (.ok (), m') →
      run B fuel name body m = some (conclude m.sched.nextId m', m') ∧
        Scheduler.Reports
          (es ++ .started m.sched.nextId true :: drainEvents B fuel (startMain B name body m))
          m.sched m'.sched) ∧
    (∀ fuel why m', drain B fuel m = some (.error why, m') →
      m'.sched.unhandled = m.sched.unhandled) ∧
    (∀ fuel name body why m', drain B fuel (startMain B name body m) = some (.error why, m') →
      m'.sched.unhandled = m.sched.unhandled) ∧
    ∀ fuel name body out m', spawn B fuel name body m = some (out, m') →
      m'.sched.unhandled = m.sched.unhandled := by
  -- no list is cleared between the calls
  have hrests := h.lasting (Scheduler.lasting_reported.relist [])
    (Scheduler.reported_fresh maxSteps)
  refine ⟨fun fuel m' hd => reports_drain [] hrests.holds hrests.mainOutermost hd,
    fun fuel name body m' hd => ⟨by simp [run, hd], reports_run [] hrests hd⟩,
    fun fuel why m' hd => ?_, fun fuel name body why m' hd => ?_,
      fun fuel name body out m' hs => ?_⟩
  · exact unreporting_tick.iterate faithful_tick (drain_eq_error hd).1
  · have hsame := unreporting_tick.iterate faithful_tick (drain_eq_error hd).1
    exact hsame
  · obtain ⟨ended, hi⟩ := spawn_eq_some hs
    have hsame := unreporting_act.iterate faithful_act hi
    exact hsame

/-! ## Bodies that throw -/

/-- Bodies that make their moves one after the other and then throw. -/
def throwing : Behaviour (List Move) Unit Unit where
  act world tasks
    | [] => (.throw () none, world)
    | moves => scripted.act world tasks moves
  resume := scripted.resume
  note := scripted.note

/-- A main body that starts two tasks and waits for the second one. -/
def loseOne : List Move :=
  [.start "lost" [], .start "kept" [.pause], .join ⟨2⟩]

/-- What is left when `loseOne` has run: the task that it did not wait for is listed. -/
def oneLost : Machine (List Move) Unit Unit :=
  ⟨⟨#[⟨"main", .thrown () none, [], true⟩, ⟨"lost", .thrown () none, [], false⟩,
    ⟨"kept", .thrown () none, [], true⟩], [], [], some ⟨0⟩, 2, 10, [⟨0⟩], [⟨1⟩]⟩, ()⟩

/-- What is left when one more task has been spawned, which throws at once. -/
def twoLost : Machine (List Move) Unit Unit :=
  { oneLost with sched := { oneLost.sched with
    tasks := oneLost.sched.tasks.push ⟨"late", .thrown () none, [], false⟩
    rejected := [⟨0⟩, ⟨3⟩] } }

theorem run_loseOne :
    run throwing 20 "main" loseOne ⟨.fresh 10, ()⟩ = some (.ok ⟨0⟩, oneLost) := rfl

theorem reports_twoLost : Scheduler.Reports
    (runEvents throwing 20 "main" loseOne ⟨.fresh 10, ()⟩ ++
      spawnEvents throwing 2 "late" [] oneLost ++ drainEvents throwing 1 twoLost) twoLost.sched
    { twoLost.sched with rejected := [⟨0⟩], unhandled := [⟨1⟩, ⟨3⟩] } := by
  have hspawn : spawn throwing 2 "late" [] oneLost = some (.ok ⟨3⟩, twoLost) := rfl
  exact (drains_report ((Uses.none.run run_loseOne).spawn hspawn)).1 1 _ rfl

end Machine

end CoScript
