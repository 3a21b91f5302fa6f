import CoScript.Proofs.Task.Placement
import Mathlib.Data.Fintype.Pigeonhole
import Mathlib.Logic.Relation

/-!
# Deadlocks

When the queue is empty, each pending task waits with another pending task, so that from any of them
the way leads into a cycle. Nothing ever resumes a task on a cycle or on the way to one.

Results:
* `Scheduler.WaitsOn`, `Scheduler.LeadsToCycle`: the relation and its cycles.
* `HandlesReturned`: bodies wait only for tasks that a finished call has given to somebody.
* `Machine.stalls_iff_leadsToCycle`: a run stalls if and only if its main task leads to a
  cycle, and then the main task stays pending for ever.
-/

namespace CoScript

open Relation

/-! ## Handles -/

section Handles

variable {ν : Type}

/-- The call that started a task has returned: that of a plain task once its body waited or ended,
    that of a main task when the run returned it. -/
def Handed (es : List (Event ν)) (id : TaskId) : Prop :=
  .started id false ∈ es ∧ ((∃ what, .awaited id what ∈ es) ∨ ∃ state, .settled id state ∈ es) ∨
    .returned id ∈ es

/-- Each task that a body waits for was given to somebody before. -/
def HandlesReturned (es : List (Event ν)) : Prop :=
  ∀ before after p id, es = before ++ .awaited p (.task id) :: after → Handed before id

theorem Handed.append {es : List (Event ν)} {id : TaskId} (h : Handed es id)
    (es' : List (Event ν)) : Handed (es ++ es') id := by
  obtain ⟨h, ⟨what, hw⟩ | ⟨state, hs⟩⟩ | h := h
  · exact .inl ⟨by simp [h], .inl ⟨what, by simp [hw]⟩⟩
  · exact .inl ⟨by simp [h], .inr ⟨state, by simp [hs]⟩⟩
  · exact .inr (by simp [h])

theorem HandlesReturned.of_append {es es' : List (Event ν)} (h : HandlesReturned (es ++ es')) :
    HandlesReturned es := by
  intro before after p id he
  exact h before (after ++ es') p id (by rw [he]; simp)

theorem handlesReturned_nil : HandlesReturned ([] : List (Event ν)) := by
  simp [HandlesReturned]

theorem HandlesReturned.append {es es' : List (Event ν)} (h : HandlesReturned es)
    (h' : ∀ p id, .awaited p (.task id) ∈ es' → Handed es id) : HandlesReturned (es ++ es') := by
  intro before after p id he
  obtain ⟨mid, rfl, hmid⟩ | ⟨mid, rfl, hmid⟩ := List.append_eq_append_iff.mp he
  · exact (h' p id (by rw [hmid]; simp)).append mid
  · cases mid with
    | nil => simpa using h' p id (by simp at hmid; simp [← hmid])
    | cons e mid =>
      obtain ⟨rfl, rfl⟩ := List.cons.inj hmid
      exact h before mid p id rfl

theorem HandlesReturned.handed {es : List (Event ν)} (h : HandlesReturned es) {p id : TaskId}
    (he : .awaited p (.task id) ∈ es) : Handed es id := by
  obtain ⟨before, after, rfl⟩ := List.append_of_mem he
  exact (h before after p id rfl).append _

end Handles

namespace Scheduler

variable {β ν : Type} {s s' : Scheduler β ν} {failed : List TaskId}

/-! ## Waiting on each other -/

/-- A task waits with another one. -/
def WaitsOn (s : Scheduler β ν) (a b : TaskId) : Prop :=
  ∃ t, s.tasks[b.index]? = some t ∧ ∃ p ∈ t.waiters, p.id = a

/-- The tasks that a task waits on, one after the other, end in a cycle. -/
def LeadsToCycle (s : Scheduler β ν) (id : TaskId) : Prop :=
  ∃ c, ReflTransGen s.WaitsOn id c ∧ TransGen s.WaitsOn c c

theorem count_flatMap_pos {α : Type} {l : List α} {i : ℕ} {a : α} {g : α → List TaskId}
    {x : TaskId} (h : l[i]? = some a) (hx : x ∈ g a) : 0 < (l.flatMap g).count x :=
  List.count_pos_iff.mpr (List.mem_flatMap.mpr ⟨a, List.mem_of_getElem? h, hx⟩)

theorem two_le_count_flatMap {α : Type} {l : List α} {i j : ℕ} {a b : α} {g : α → List TaskId}
    {x : TaskId} (hij : i < j) (hi : l[i]? = some a) (hj : l[j]? = some b) (ha : x ∈ g a)
    (hb : x ∈ g b) : 2 ≤ (l.flatMap g).count x := by
  induction l generalizing i j with
  | nil => simp at hi
  | cons c l ih =>
    obtain _ | j := j
    · omega
    rw [List.flatMap_cons, List.count_append]
    obtain _ | i := i
    · simp only [List.getElem?_cons_zero, Option.some.injEq] at hi
      subst hi
      have h1 : 0 < (g c).count x := List.count_pos_iff.mpr ha
      have h2 := count_flatMap_pos (g := g) (by simpa using hj) hb
      omega
    · have := ih (i := i) (j := j) (by omega) (by simpa using hi) (by simpa using hj)
      omega

theorem WaitsOn.count_pos {a b : TaskId} (h : s.WaitsOn a b) :
    0 < (s.tasks.toList.flatMap fun t => t.waiters.map (·.id)).count a := by
  obtain ⟨t, ht, p, hp, rfl⟩ := h
  exact count_flatMap_pos (i := b.index) (by simpa using ht) (List.mem_map_of_mem hp)

theorem count_standing (s : Scheduler β ν) (a : TaskId) :
    s.standing.count a = (s.ready.map (·.parked.id)).count a +
      (s.tasks.toList.flatMap fun t => t.waiters.map (·.id)).count a :=
  List.count_append

/-- A task waits on one task at most. -/
theorem Accounted.waitsOn_unique (h : s.Accounted failed) {a b b' : TaskId} (hb : s.WaitsOn a b)
    (hb' : s.WaitsOn a b') : b = b' := by
  have hle : (s.tasks.toList.flatMap fun t => t.waiters.map (·.id)).count a ≤ 1 := by
    have hc := h.count a
    have := s.count_standing a
    split at hc <;> omega
  obtain ⟨t, ht, p, hp, rfl⟩ := hb
  obtain ⟨t', ht', p', hp', hid⟩ := hb'
  have hmem : p.id ∈ t.waiters.map (·.id) := List.mem_map_of_mem hp
  have hmem' : p.id ∈ t'.waiters.map (·.id) := hid ▸ List.mem_map_of_mem hp'
  by_contra hne
  have hidx : b.index ≠ b'.index := fun h => hne (TaskId.index_inj.mp h)
  have hl : s.tasks.toList[b.index]? = some t := by simpa using ht
  have hl' : s.tasks.toList[b'.index]? = some t' := by simpa using ht'
  obtain hlt | hlt := Nat.lt_or_gt_of_ne hidx
  · have := two_le_count_flatMap (g := fun t => t.waiters.map (·.id)) hlt hl hl' hmem hmem'
    omega
  · have := two_le_count_flatMap (g := fun t => t.waiters.map (·.id)) hlt hl' hl hmem' hmem
    omega

/-- A task that waits on another is pending and no body of it is running. -/
theorem Accounted.of_waitsOn (h : s.Accounted failed) {a b : TaskId} (hab : s.WaitsOn a b) :
    s.isPending a = true ∧ ¬ s.IsRunning a := by
  have hc := h.count a
  have hw := hab.count_pos
  have hst := s.count_standing a
  split at hc
  · rename_i hpend
    refine ⟨hpend.1, ?_⟩
    rintro ⟨p, hp, rfl⟩
    have : 0 < (s.running.map (·.id)).count p.id :=
      List.count_pos_iff.mpr (List.mem_map_of_mem hp)
    omega
  · omega

/-- The task that another one waits on is pending. -/
theorem Accounted.isPending_of_waitsOn (h : s.Accounted failed) {a b : TaskId}
    (hab : s.WaitsOn a b) : s.isPending b = true := by
  obtain ⟨t, ht, p, hp, -⟩ := hab
  rw [isPending_eq ht, h.waiters_pending b t ht (List.ne_nil_of_mem hp)]
  rfl

/-! ## What one move does to waits -/

section Step

variable {e : Event ν} {a b x : TaskId}

/-- Nothing waits on a task that has just ended. -/
theorem not_waitsOn_settle (s : Scheduler β ν) (state : TaskState ν) {id : TaskId} :
    ¬ (s.settle id state).WaitsOn a id := by
  rintro ⟨t, ht, p, hp, -⟩
  unfold settle at ht
  split at ht
  · simp_all
  · rename_i t₀ ht₀
    simp only [Array.getElem?_modify, if_pos, ht₀, Option.map_some, Option.some.injEq] at ht
    subst ht
    simp at hp

theorem waitsOn_start (s : Scheduler β ν) (name : String) (body : β) (observed : Bool) :
    (s.start name body observed).WaitsOn a b ↔ s.WaitsOn a b := by
  constructor
  · rintro ⟨t, ht, p, hp, rfl⟩
    rw [start_tasks, Array.getElem?_push] at ht
    split at ht
    · simp only [Option.some.injEq] at ht
      subst ht
      simp at hp
    · exact ⟨t, ht, p, hp, rfl⟩
  · rintro ⟨t, ht, p, hp, rfl⟩
    refine ⟨t, ?_, p, hp, rfl⟩
    have := (Array.getElem?_eq_some_iff.mp ht).1
    rw [start_tasks, Array.getElem?_push, if_neg (by omega)]
    exact ht

variable [Inhabited ν]

theorem Step.size_le (h : Step s e s') : s.tasks.size ≤ s'.tasks.size := by
  cases h with
  | spawn name body hr => simp
  | run name body hr => simp
  | child name child parent hr => simp
  | await what body' hr => rw [size_tasks_suspend]
  | settle state hr hs hm => rw [size_tasks_settle]
  | _ => exact Nat.le_refl _

theorem Step.size_of_started {isMain : Bool} (h : Step s (.started x isMain) s') :
    x = s.nextId ∧ s'.tasks.size = s.tasks.size + 1 := by
  cases h <;> simp

/-- Only its end makes a task settled. -/
theorem Step.isPending (h : Step s e s') (hx : s.isPending x = true)
    (he : ∀ state, e ≠ .settled x state) : s'.isPending x = true := by
  cases h with
  | spawn name body hr => simp [isPending_start, hx]
  | run name body hr =>
    have := isPending_start s name body true x
    simp only [hx, Bool.or_true] at this
    exact this
  | child name child parent hr =>
    rw [isPending_start, Bool.or_eq_true]
    exact .inr hx
  | await what body' hr =>
    rw [isPending_suspend]
    exact hx
  | @settle id _ _ state hr hs hm =>
    have hne : x ≠ id := by
      rintro rfl
      exact he state rfl
    rw [isPending_settle _ _ hs, Bool.and_eq_true]
    exact ⟨decide_eq_true hne, hx⟩
  | _ => exact hx

/-- A settled task stays so. -/
theorem Step.isSettled (h : Step s e s') (hx : (s.stateOf x).isSettled = true) :
    (s'.stateOf x).isSettled = true := by
  cases h with
  | spawn name body hr => rwa [stateOf_start]
  | run name body hr =>
    have := stateOf_start s name body true x
    rw [← this] at hx
    exact hx
  | child name child parent hr => rwa [stateOf_start]
  | await what body' hr => rwa [stateOf_suspend]
  | @settle id _ outer state hr hs hm =>
    by_cases hid : x = id
    · subst hid
      cases ht : s.tasks[x.index]? with
      | none => simp [stateOf, ht, TaskState.isSettled] at hx
      | some t =>
        rw [stateOf_settle_self (s := { s with running := outer }) ht]
        exact hs
    · rw [stateOf_settle_of_ne _ _ hid]
      exact hx
  | _ => exact hx

/-- A body that waits on a task has just begun to. -/
theorem Step.waitsOn_or (h : Step s e s') (hw : s'.WaitsOn a b) :
    s.WaitsOn a b ∨ e = .awaited a (.task b) := by
  cases h with
  | spawn name body hr => exact .inl ((waitsOn_start s name body false).mp hw)
  | run name body hr => exact .inl ((waitsOn_start s name body true).mp hw)
  | child name child parent hr => exact .inl ((waitsOn_start _ name child false).mp hw)
  | await what body' hr =>
    obtain ⟨t', ht', p, hp, rfl⟩ := hw
    obtain ⟨t, ht, -, hw | ⟨hw, ha, -⟩⟩ := waiters_suspend _ _ _ ht'
    · exact .inl ⟨t, ht, p, hw ▸ hp, rfl⟩
    · rw [hw, List.mem_append, List.mem_singleton] at hp
      obtain hp | rfl := hp
      · exact .inl ⟨t, ht, p, hp, rfl⟩
      · exact .inr (by rw [ha])
  | @settle id _ _ state hr hs hm =>
    by_cases hb : b = id
    · subst hb
      exact absurd hw (not_waitsOn_settle _ _)
    · obtain ⟨t, ht, hp⟩ := hw
      rw [getElem?_settle_of_ne _ _ hb] at ht
      exact .inl ⟨t, ht, hp⟩
  | _ => exact .inl hw

/-- A body goes on waiting on a task unless that task runs. -/
theorem Step.waitsOn (h : Step s e s') (hw : s.WaitsOn a b) (hb : ¬ s.IsRunning b) :
    s'.WaitsOn a b := by
  cases h with
  | spawn name body hr => exact (waitsOn_start s name body false).mpr hw
  | run name body hr => exact (waitsOn_start s name body true).mpr hw
  | child name child parent hr => exact (waitsOn_start _ name child false).mpr hw
  | @await id _ outer what body' hr =>
    obtain ⟨t, ht, p, hp, rfl⟩ := hw
    have hlt := (Array.getElem?_eq_some_iff.mp ht).1
    obtain ⟨t', ht'⟩ : ∃ t', ({ s with running := outer }.suspend ⟨id, body'⟩
        what).1.tasks[b.index]? = some t' :=
      ⟨_, Array.getElem?_eq_getElem (by rw [size_tasks_suspend]; exact hlt)⟩
    refine ⟨t', ht', p, ?_, rfl⟩
    obtain ⟨t₀, ht₀, -, hw⟩ := waiters_suspend _ _ _ ht'
    obtain rfl : t₀ = t := Option.some.inj (ht₀.symm.trans ht)
    obtain hw | ⟨hw, -, -⟩ := hw <;> rw [hw]
    · exact hp
    · exact List.mem_append_left _ hp
  | @settle id body outer state hr hs hm =>
    have hne : b ≠ id := by
      rintro rfl
      exact hb ⟨⟨b, body⟩, by simp [hr], rfl⟩
    obtain ⟨t, ht, hp⟩ := hw
    exact ⟨t, by rw [getElem?_settle_of_ne _ _ hne]; exact ht, hp⟩
  | _ => exact hw

end Step

/-! ## What the history says -/

/-- What the history says of the tasks as they are now. -/
structure Recorded (s : Scheduler β ν) (es : List (Event ν)) : Prop where
  started_lt : ∀ id isMain, .started id isMain ∈ es → id.index < s.tasks.size
  started_unique : ∀ id isMain isMain', .started id isMain ∈ es → .started id isMain' ∈ es →
    isMain = isMain'
  main_started : ∀ id, s.main = some id → .started id true ∈ es
  failed_started : ∀ id ∈ failedMains es, .started id true ∈ es
  failed_pending : ∀ id ∈ failedMains es, s.isPending id = true
  returned_settled : ∀ id, .returned id ∈ es → (s.stateOf id).isSettled = true
  waiting : ∀ a b, s.WaitsOn a b → .awaited a (.task b) ∈ es

theorem recorded_fresh (maxSteps : ℕ) : (fresh maxSteps : Scheduler β ν).Recorded [] :=
  ⟨by simp, by simp, by simp [fresh], by simp, by simp, by simp, by simp [WaitsOn, fresh]⟩

theorem mem_failedMains {es : List (Event ν)} {id : TaskId} :
    id ∈ failedMains es ↔ ∃ f, .mainFailed id f ∈ es := by
  unfold failedMains
  rw [List.mem_filterMap]
  constructor
  · rintro ⟨e, he, hid⟩
    cases e <;> simp at hid
    subst hid
    exact ⟨_, he⟩
  · rintro ⟨f, hf⟩
    exact ⟨_, hf, rfl⟩

theorem Recorded.step [Inhabited ν] {es : List (Event ν)} {e : Event ν} (h : s.Recorded es)
    (hacc : s.Accounted failed) (hfailed : failedMains es ⊆ failed) (hstep : Step s e s') :
    s'.Recorded (es ++ [e]) := by
  have hnew : ∀ id isMain, .started id isMain = e → .started id isMain ∉ es ∧
      ∀ isMain', .started id isMain' ∉ es := by
    rintro id isMain rfl
    obtain ⟨rfl, -⟩ := hstep.size_of_started
    have hlt : ∀ isMain', .started s.nextId isMain' ∉ es := fun isMain' hm => by
      have := h.started_lt _ _ hm
      simp [nextId] at this
    exact ⟨hlt _, hlt⟩
  refine ⟨fun id isMain hm => ?_, fun id isMain isMain' hm hm' => ?_, fun id hid => ?_,
    fun id hid => ?_, fun id hid => ?_, fun id hid => ?_, fun a b hab => ?_⟩
  · simp only [List.mem_append, List.mem_singleton] at hm
    obtain hm | rfl := hm
    · exact Nat.lt_of_lt_of_le (h.started_lt id isMain hm) hstep.size_le
    · obtain ⟨rfl, hsize⟩ := hstep.size_of_started
      rw [hsize]
      exact Nat.lt_succ_self _
  · simp only [List.mem_append, List.mem_singleton] at hm hm'
    obtain hm | hm := hm <;> obtain hm' | hm' := hm'
    · exact h.started_unique id isMain isMain' hm hm'
    · exact absurd hm ((hnew id isMain' hm').2 isMain)
    · exact absurd hm' ((hnew id isMain hm).2 isMain')
    · rw [← hm'] at hm
      exact (Event.started.inj hm).2
  · by_cases he : e = .started s.nextId true
    · subst he
      cases hstep with
      | run name body hr =>
        obtain rfl : s.nextId = id := Option.some.inj hid
        simp
    · rw [hstep.main_eq he] at hid
      exact List.mem_append_left _ (h.main_started id hid)
  · rw [failedMains_append, List.mem_append] at hid
    obtain hid | hid := hid
    · exact List.mem_append_left _ (h.failed_started id hid)
    · obtain ⟨f, hf⟩ := mem_failedMains.mp hid
      obtain rfl := List.mem_singleton.mp hf
      cases hstep with
      | mainFails _ hr hm => exact List.mem_append_left _ (h.main_started id hm)
  · rw [failedMains_append, List.mem_append] at hid
    obtain hid | hid := hid
    · refine hstep.isPending (h.failed_pending id hid) ?_
      -- a task that ends runs before, and a failed main task does not
      rintro state rfl
      cases hstep with
      | @settle _ body _ _ hr hs hm =>
        exact (hacc.of_running (p := ⟨id, body⟩) (by rw [hr]; simp)).2.1 (hfailed hid)
    · obtain ⟨f, hf⟩ := mem_failedMains.mp hid
      obtain rfl := List.mem_singleton.mp hf
      cases hstep with
      | @mainFails _ body _ _ hr hm =>
        exact (hacc.of_running (p := ⟨id, body⟩) (by rw [hr]; simp)).1
  · simp only [List.mem_append, List.mem_singleton] at hid
    obtain hid | rfl := hid
    · exact hstep.isSettled (h.returned_settled id hid)
    · cases hstep with
      | «return» hr hm hs => exact hs
  · obtain hab | rfl := hstep.waitsOn_or hab
    · exact List.mem_append_left _ (h.waiting a b hab)
    · simp

/-- The history of steps from a fresh scheduler says what is so. -/
theorem Steps.recorded [Inhabited ν] {maxSteps : ℕ} {es : List (Event ν)}
    (h : Steps (fresh maxSteps) es s) : s.Recorded es ∧ s.Accounted (failedMains es) := by
  generalize hs : (fresh maxSteps : Scheduler β ν) = s₀ at h
  induction h with
  | refl => exact hs ▸ ⟨recorded_fresh maxSteps, accounted_fresh maxSteps⟩
  | snoc _ hstep ih =>
    obtain ⟨hrec, hacc⟩ := ih
    refine ⟨hrec.step hacc (List.Subset.refl _) hstep, ?_⟩
    rw [failedMains_append]
    exact hacc.step hstep

/-- Nothing waits on a main task that ended in a fault, for its run has not returned. -/
theorem Recorded.not_mem_failedMains {es : List (Event ν)} (h : s.Recorded es)
    (hh : HandlesReturned es) {a b : TaskId} (hab : s.WaitsOn a b) : b ∉ failedMains es := by
  intro hb
  obtain ⟨hstarted, -⟩ | hret := hh.handed (h.waiting a b hab)
  · have := h.started_unique b _ _ hstarted (h.failed_started b hb)
    simp at this
  · have hset := h.returned_settled b hret
    have hpend := h.failed_pending b hb
    unfold isPending at hpend
    unfold stateOf at hset
    split at hset <;> simp_all

/-! ## Cycles -/

/-- On finitely many points, a way that never ends comes to a cycle. -/
theorem exists_cycle {α : Type} [Finite α] {r : α → α → Prop} (h : ∀ a, ∃ b, r a b) (a : α) :
    ∃ c, ReflTransGen r a c ∧ TransGen r c c := by
  choose next hnext using h
  have hiter : ∀ n x, ReflTransGen r x (next^[n] x) := by
    intro n x
    induction n with
    | zero => exact .refl
    | succ n ih =>
      rw [Function.iterate_succ_apply']
      exact ih.tail (hnext _)
  obtain ⟨i, j, hne, heq⟩ := Finite.exists_ne_map_eq_of_infinite fun n => next^[n] a
  obtain ⟨i, j, hij, heq⟩ : ∃ i j, i < j ∧ next^[i] a = next^[j] a := by
    obtain hlt | hlt := Nat.lt_or_gt_of_ne hne
    · exact ⟨i, j, hlt, heq⟩
    · exact ⟨j, i, hlt, heq.symm⟩
  refine ⟨next^[i] a, hiter i a, ?_⟩
  obtain ⟨k, rfl⟩ : ∃ k, j = k + 1 + i := ⟨j - i - 1, by omega⟩
  have hloop := TransGen.head' (hnext (next^[i] a)) (hiter k _)
  rw [← Function.iterate_succ_apply, ← Function.iterate_add_apply, Nat.succ_eq_add_one, ← heq]
    at hloop
  exact hloop

/-- With an empty queue, a task that is pending leads to a cycle. -/
theorem Recorded.leadsToCycle {es : List (Event ν)} (h : s.Recorded es)
    (hacc : s.Accounted (failedMains es)) (hh : HandlesReturned es) (hr : s.running = [])
    (hq : s.ready = []) {id : TaskId} (hp : s.isPending id = true) (hf : id ∉ failedMains es) :
    s.LeadsToCycle id := by
  let α := { x : TaskId // s.isPending x = true ∧ x ∉ failedMains es }
  have hfin : Finite α :=
    Finite.of_injective (fun x : α => (⟨x.1.index, lt_of_isPending x.2.1⟩ : Fin s.tasks.size)) <| by
      rintro ⟨⟨i⟩, _⟩ ⟨⟨j⟩, _⟩ hij
      obtain rfl : i = j := by simpa using hij
      rfl
  have hnext : ∀ a : α, ∃ b : α, s.WaitsOn a.1 b.1 := by
    rintro ⟨a, ha, haf⟩
    have hc := hacc.count a
    rw [if_pos ⟨ha, haf⟩, hr, count_standing, hq] at hc
    simp only [List.map_nil, List.count_nil, Nat.zero_add] at hc
    have hmem := List.count_pos_iff.mp (by omega : 0 <
      (s.tasks.toList.flatMap fun t => t.waiters.map (·.id)).count a)
    obtain ⟨t, ht, hw⟩ := List.mem_flatMap.mp hmem
    obtain ⟨p, hp, rfl⟩ := List.mem_map.mp hw
    obtain ⟨i, hi⟩ := List.getElem?_of_mem ht
    have hab : s.WaitsOn p.id ⟨i⟩ := ⟨t, by simpa using hi, p, hp, rfl⟩
    exact ⟨⟨⟨i⟩, hacc.isPending_of_waitsOn hab, h.not_mem_failedMains hh hab⟩, hab⟩
  obtain ⟨c, hc, hcc⟩ := exists_cycle hnext ⟨id, hp, hf⟩
  exact ⟨c.1, hc.lift Subtype.val (fun _ _ hab => hab),
    hcc.lift Subtype.val (fun _ _ hab => hab)⟩

/-- From a task that leads to a cycle, each task on the way waits on just one other and leads to the
    same cycle. -/
theorem Accounted.reaches (h : s.Accounted failed) {a b c : TaskId}
    (hac : ReflTransGen s.WaitsOn a c) (hcc : TransGen s.WaitsOn c c)
    (hab : ReflTransGen s.WaitsOn a b) :
    ReflTransGen s.WaitsOn b c ∧ s.isPending b = true ∧ ∃! x, s.WaitsOn b x := by
  have hnext : ∀ b, ReflTransGen s.WaitsOn b c → ∃ x, s.WaitsOn b x ∧
      ReflTransGen s.WaitsOn x c := by
    intro b hbc
    obtain rfl | ⟨x, hbx, hxc⟩ := hbc.cases_head
    · exact TransGen.head'_iff.mp hcc
    · exact ⟨x, hbx, hxc⟩
  have hbc : ReflTransGen s.WaitsOn b c := by
    induction hab with
    | refl => exact hac
    | tail _ hbx ih =>
      obtain ⟨y, hby, hyc⟩ := hnext _ ih
      rwa [h.waitsOn_unique hbx hby]
  obtain ⟨x, hbx, -⟩ := hnext b hbc
  exact ⟨hbc, (h.of_waitsOn hbx).1, x, hbx, fun y hby => h.waitsOn_unique hby hbx⟩

/-- No move gets a task off its way to a cycle: what settles the task that it waits on runs that
    task, and none on the way runs. -/
theorem Accounted.leadsToCycle_step [Inhabited ν] (h : s.Accounted failed) {e : Event ν}
    (hstep : Step s e s') {id : TaskId} (hid : s.LeadsToCycle id) : s'.LeadsToCycle id := by
  obtain ⟨c, hac, hcc⟩ := hid
  have hkeep : ∀ {a b}, s.WaitsOn a b → ReflTransGen s.WaitsOn b c → s'.WaitsOn a b := by
    intro a b hab hbc
    obtain ⟨-, -, x, hbx, -⟩ := h.reaches hbc hcc .refl
    exact hstep.waitsOn hab (h.of_waitsOn hbx).2
  have hpath : ∀ {a}, ReflTransGen s.WaitsOn a c → ReflTransGen s'.WaitsOn a c := by
    intro a ha
    induction ha using ReflTransGen.head_induction_on with
    | refl => exact .refl
    | head hab hbc ih => exact ih.head (hkeep hab hbc)
  obtain ⟨x, hcx, hxc⟩ := TransGen.head'_iff.mp hcc
  exact ⟨c, hpath hac, TransGen.head' (hkeep hcx hxc) (hpath hxc)⟩

theorem Accounted.leadsToCycle_steps [Inhabited ν] (h : s.Accounted failed) {es : List (Event ν)}
    (hsteps : Steps s es s') {id : TaskId} (hid : s.LeadsToCycle id) : s'.LeadsToCycle id := by
  induction hsteps with
  | refl => exact hid
  | snoc hes hstep ih => exact (h.steps hes).leadsToCycle_step hstep ih

theorem Accounted.isPending_of_leadsToCycle (h : s.Accounted failed) {id : TaskId}
    (hid : s.LeadsToCycle id) : s.isPending id = true := by
  obtain ⟨c, hac, hcc⟩ := hid
  exact (h.reaches hac hcc .refl).2.1

/-- Once the queue is empty, a main task that did not end in a fault has ended or leads to a cycle,
    and not both. -/
theorem Recorded.settled_iff {es : List (Event ν)} (h : s.Recorded es)
    (hacc : s.Accounted (failedMains es)) (hh : HandlesReturned es) (hr : s.running = [])
    (hq : s.ready = []) {id : TaskId} (hlt : id.index < s.tasks.size)
    (hf : id ∉ failedMains es) :
    (s.stateOf id).isSettled = true ↔ ¬ s.LeadsToCycle id := by
  have ht := Array.getElem?_eq_getElem hlt
  rw [isSettled_stateOf ht]
  constructor
  · intro hs hc
    have := hacc.isPending_of_leadsToCycle hc
    simp [isPending_eq ht, hs] at this
  · intro hc
    by_contra hs
    exact hc (h.leadsToCycle hacc hh hr hq (by simp [isPending_eq ht, hs]) hf)

end Scheduler

namespace Machine

variable {β ν ω : Type} [Inhabited ν] {B : Behaviour β ν ω}

variable {maxSteps fuel : ℕ} {world : ω} {es : List (Event ν)} {m m' : Machine β ν ω}
  {name : String} {body : β}

/-- Moves until nothing is left to do fail no main task. -/
theorem Faithful.failedMains_trace {move : Machine β ν ω → Progress (Machine β ν ω)}
    (hf : Faithful B move) (h : iterate move fuel m = some (.ok (), m')) :
    failedMains (trace B move fuel m) = [] := by
  induction fuel, m, h using iterate_induction with
  | next fuel m m₁ hmove _ ih =>
    rw [trace_next hmove, ← List.singleton_append, failedMains_append, (hf.next hmove).2, ih]
    rfl
  | idle fuel m hmove =>
    rw [trace_idle hmove]
    rfl
  | halted _ _ _ _ hout => cases hout

theorem failedMains_drainEvents (h : drain B fuel m = some (.ok (), m')) :
    failedMains (drainEvents B fuel m) = [] := by
  obtain ⟨m₁, hi, -⟩ := drain_eq_some h
  unfold drainEvents
  rw [h, failedMains_append, faithful_tick.failedMains_trace hi]
  rfl

/-- Calls that follow a drain are steps from where it ended. -/
theorem Calls.leadsToCycle {es' : List (Event ν)} {m'' : Machine β ν ω} {failed : List TaskId}
    (h : Calls B m' es' m'') (hacc : m'.sched.Accounted failed) (hr : m'.sched.running = [])
    (hm : m'.sched.MainOutermost) {id : TaskId} (hid : m'.sched.LeadsToCycle id) :
    m''.sched.isPending id = true := by
  obtain ⟨hsteps, -⟩ := h.steps hr hm
  exact (hacc.steps hsteps).isPending_of_leadsToCycle (hacc.leadsToCycle_steps hsteps hid)

/-- When bodies wait only for tasks that a finished call has given out, a run whose queue empties
    stalls if and only if its main task leads to a cycle of pending tasks; then each task on the way
    waits on just one other, and no calls after that ever end the main task. Whenever the host
    drains the queue, each main task that did not end in a fault has ended or leads to a cycle. -/
theorem stalls_iff_leadsToCycle (h : Calls B ⟨.fresh maxSteps, world⟩ es m) :
    (∀ fuel name body m', HandlesReturned (es ++ runEvents B fuel name body m) →
      drain B fuel (startMain B name body m) = some (.ok (), m') →
      (run B fuel name body m =
          some (.error (.fault ⟨.stalled, none, some (m'.sched.labelOf m.sched.nextId)⟩), m') ↔
        m'.sched.LeadsToCycle m.sched.nextId) ∧
      (m'.sched.LeadsToCycle m.sched.nextId →
        (∀ a, ReflTransGen m'.sched.WaitsOn m.sched.nextId a →
          m'.sched.isPending a = true ∧ ∃! b, m'.sched.WaitsOn a b) ∧
        ∀ es' m'', Calls B m' es' m'' → m''.sched.isPending m.sched.nextId = true) ∧
      (¬ m'.sched.LeadsToCycle m.sched.nextId →
        run B fuel name body m = some (.ok m.sched.nextId, m') ∧
          (m'.sched.stateOf m.sched.nextId).isSettled = true)) ∧
    ∀ fuel m' id, HandlesReturned (es ++ drainEvents B fuel m) →
      drain B fuel m = some (.ok (), m') → .started id true ∈ es → id ∉ failedMains es →
      ((m'.sched.stateOf id).isSettled = true ↔ ¬ m'.sched.LeadsToCycle id) := by
  obtain ⟨hsteps, hr⟩ := h.steps_fresh
  refine ⟨fun fuel name body m' hh hd => ?_, fun fuel m' id hh hd hid hf => ?_⟩
  · have hstart := startMain_step B name body hr
    have hm := h.mainOutermost.step hstart
    obtain ⟨hdrain, hr', -, hq⟩ := drain_steps hm hd (by simp)
    have hhist := (Scheduler.Steps.single hstart).trans hdrain
    obtain ⟨hrec, hacc⟩ := (hsteps.trans hhist).recorded
    have hh' : HandlesReturned (es ++ ([.started m.sched.nextId true] ++
        drainEvents B fuel (startMain B name body m))) := by
      unfold runEvents at hh
      rw [← List.append_assoc] at hh
      exact hh.of_append
    have hlt : m.sched.nextId.index < m'.sched.tasks.size :=
      hrec.started_lt _ true (by simp)
    have hf : m.sched.nextId ∉ failedMains (es ++ ([.started m.sched.nextId true] ++
        drainEvents B fuel (startMain B name body m))) := by
      rw [failedMains_append, failedMains_append, failedMains_drainEvents hd, List.append_nil]
      simpa [failedMains] using h.accounted.nextId_not_mem
    have hiff := hrec.settled_iff hacc hh' hr' (hq rfl) hlt hf
    have hrun : run B fuel name body m = some (conclude m.sched.nextId m', m') := by
      simp [run, hd]
    refine ⟨?_, fun hc => ⟨fun a ha => ?_, fun es' m'' hcalls => ?_⟩, fun hc => ⟨?_, hiff.mpr hc⟩⟩
    · rw [hrun]
      by_cases hs : (m'.sched.stateOf m.sched.nextId).isSettled = true
      · simp [conclude, hs, hiff.mp hs]
      · simpa [conclude, hs] using not_not.mp (mt hiff.mpr hs)
    · obtain ⟨c, hac, hcc⟩ := hc
      exact (hacc.reaches hac hcc ha).2
    · exact hcalls.leadsToCycle hacc hr' (hm.steps hdrain) hc
    · rw [hrun, conclude, if_pos (hiff.mpr hc)]
  · obtain ⟨hdrain, hr', -, hq⟩ := drain_steps h.mainOutermost hd (by simp)
    obtain ⟨hrec, hacc⟩ := (hsteps.trans hdrain).recorded
    refine hrec.settled_iff hacc hh hr' (hq rfl) (hrec.started_lt id true (by simp [hid])) ?_
    rwa [failedMains_append, failedMains_drainEvents hd, List.append_nil]

theorem leadsToCycle_stalled : stalled.sched.LeadsToCycle ⟨0⟩ := by
  refine ((stalls_iff_leadsToCycle .none).1 9 "main" selfWait stalled ?_ rfl).1.mp run_selfWait
  have hstart : HandlesReturned
      [.started ⟨0⟩ true, .started ⟨1⟩ false, .awaited ⟨1⟩ (.value ())] :=
    handlesReturned_nil.append (by simp)
  refine hstart.append fun p id hm => ?_
  have hid : id = ⟨1⟩ := by
    change Event.awaited p (.task id) ∈ [.awaited ⟨0⟩ (.task ⟨1⟩), .resumed ⟨1⟩ (.value ()),
      .awaited ⟨1⟩ (.task ⟨1⟩), .drained] at hm
    simp only [List.mem_cons, Event.awaited.injEq, Awaited.task.injEq, reduceCtorEq,
      List.not_mem_nil, false_or, or_false] at hm
    obtain hm | hm := hm <;> exact hm.2
  subst hid
  exact .inl ⟨by simp, .inl ⟨.value (), by simp⟩⟩

end Machine

end CoScript
