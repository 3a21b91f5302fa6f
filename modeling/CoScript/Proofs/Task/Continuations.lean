import CoScript.Proofs.Task.Bodies
import CoScript.Proofs.Task.Budget
import CoScript.Proofs.Task.Course
import CoScript.Proofs.Task.Rejections
import CoScript.Proofs.Task.Waits

/-!
# Bodies that wait and go on

An await leaves a body behind. It stands in the queue or with the task that it waits for, and no
move changes it there: the body that gets its turn is the one that the last await of its task left
behind, and what goes on is this body with what it gets.

Results:
* `Machine.Course.split`: a course stops between any two deeds.
* `Machine.LeftBehind`: the body that an await leaves behind.
* `Machine.Course.left_behind`: the bodies that wait are those that the last awaits left behind.
* `Machine.Course.goes_on`: what goes on is such a body with what it gets.
-/

namespace CoScript

namespace Scheduler

variable {β ν : Type} {s : Scheduler β ν} {R S S' : Parked β → Prop}

/-- What holds of the bodies that wait may be replaced, for the tasks that stand somewhere. -/
theorem Everywhere.imp_waiting (h : s.Everywhere R S) (hS : ∀ p, p.id ∈ s.standing → S p → S' p) :
    s.Everywhere R S' := by
  refine ⟨h.running, fun r hr => hS _ ?_ (h.ready r hr), fun id t ht p hp => hS p ?_
    (h.waiting id t ht p hp)⟩
  · exact List.mem_append_left _ (List.mem_map.mpr ⟨r, hr, rfl⟩)
  · refine List.mem_append_right _ (List.mem_flatMap.mpr ⟨t, ?_, List.mem_map.mpr ⟨p, hp, rfl⟩⟩)
    simpa using Array.mem_of_getElem? ht

theorem lasting_accounted [Inhabited ν] :
    Lasting fun _ (s : Scheduler β ν) => ∃ failed, s.Accounted failed where
  step := fun ⟨_, h⟩ hstep => ⟨_, h.step hstep⟩
  dropped := fun ⟨_, h⟩ => ⟨_, h.dropped⟩

end Scheduler

section Latest

variable {ν : Type} [Inhabited ν]

theorem latest_task {es : List (Event ν)} {p : TaskId} {w : Suspension ν}
    (h : latest es p = some w) :
    w.task = p := by
  have hmem := List.mem_of_getLast? h
  simpa using (List.mem_filter.mp hmem).2

/-- A task keeps its last wait until it waits again. -/
theorem latest_concat_of_ne {es : List (Event ν)} {e : Event ν} {p : TaskId}
    (he : ∀ a, e ≠ .awaited p a) : latest (es ++ [e]) p = latest es p := by
  cases e with
  | awaited q a =>
    rw [latest_awaited, if_neg]
    rintro rfl
    exact he a rfl
  | _ => exact latest_concat (by simp) p

end Latest

namespace Machine

variable {β ν ω : Type} [Inhabited ν] {B : Behaviour β ν ω} {m₀ m m' : Machine β ν ω}
  {ds ds' : List (Deed ν)} {d : Deed ν}

/-! ## Courses in parts -/

/-- A course stops before its last deed. -/
theorem Course.last (h : Course B m₀ ds' m') (hds : ds' = ds ++ [d]) :
    ∃ m, Course B m₀ ds m ∧ Course B m [d] m' := by
  cases h with
  | refl => simp at hds
  | spawn name body h hr =>
    obtain ⟨rfl, hd⟩ := List.append_inj' hds rfl
    exact ⟨_, h, hd ▸ .spawn name body .refl hr⟩
  | run name body h hr =>
    obtain ⟨rfl, hd⟩ := List.append_inj' hds rfl
    exact ⟨_, h, hd ▸ .run name body .refl hr⟩
  | next h hmove =>
    obtain ⟨rfl, hd⟩ := List.append_inj' hds rfl
    exact ⟨_, h, hd ▸ .next .refl hmove⟩
  | halted h hmove =>
    obtain ⟨rfl, hd⟩ := List.append_inj' hds rfl
    exact ⟨_, h, hd ▸ .halted .refl hmove⟩
  | drained h hmove =>
    obtain ⟨rfl, hd⟩ := List.append_inj' hds rfl
    exact ⟨_, h, hd ▸ .drained .refl hmove⟩
  | returned h hr hm hs =>
    obtain ⟨rfl, hd⟩ := List.append_inj' hds rfl
    exact ⟨_, h, hd ▸ .returned .refl hr hm hs⟩

/-- A course stops between any two deeds. -/
theorem Course.split (h : Course B m₀ (ds ++ ds') m') :
    ∃ m, Course B m₀ ds m ∧ Course B m ds' m' := by
  induction ds' using List.reverseRecOn generalizing m' with
  | nil =>
    rw [List.append_nil] at h
    exact ⟨m', h, .refl⟩
  | append_singleton ds' d ih =>
    obtain ⟨m₁, h₁, hlast⟩ := h.last (List.append_assoc ..).symm
    obtain ⟨m, hm, hm₁⟩ := ih h₁
    exact ⟨m, hm, hm₁.trans hlast⟩

theorem Course.uncons (h : Course B m₀ (d :: ds) m') :
    ∃ m, Course B m₀ [d] m ∧ Course B m ds m' := by
  rw [← List.singleton_append] at h
  exact h.split

theorem Course.eq_of_nil (h : Course B m [] m') : m' = m := by
  generalize hds : ([] : List (Deed ν)) = ds at h
  cases h with
  | refl => rfl
  | _ => simp at hds

/-- A course of one deed is one move, if the deed is that of a body. -/
theorem Course.move (h : Course B m [d] m') (hd : (∃ p got, d.event = .resumed p got) ∨
    d.letOut.isSome) : d = m.deed B ∧
      (tick B m = .next m' ∨ ∃ why, tick B m = .halted why m') := by
  generalize hds : [d] = ds at h
  cases h with
  | refl => simp at hds
  | next h hmove =>
    obtain ⟨hnil, hlast⟩ := List.append_inj' (show [] ++ [d] = _ ++ [_] from hds) rfl
    subst hnil
    obtain rfl := h.eq_of_nil
    exact ⟨List.singleton_inj.mp hlast, .inl hmove⟩
  | halted h hmove =>
    obtain ⟨hnil, hlast⟩ := List.append_inj' (show [] ++ [d] = _ ++ [_] from hds) rfl
    subst hnil
    obtain rfl := h.eq_of_nil
    exact ⟨List.singleton_inj.mp hlast, .inr ⟨_, hmove⟩⟩
  | _ =>
    -- in the other deeds no body goes on, and none lets anything out
    obtain ⟨-, hlast⟩ := List.append_inj' (show [] ++ [d] = _ ++ [_] from hds) rfl
    obtain rfl := List.singleton_inj.mp hlast
    simp at hd

/-! ## Bodies that an await leaves behind -/

variable (B m₀) in
/-- At some moment of a course, an await has left a body behind: the innermost running body then
    began to wait and left this body for afterwards. -/
inductive LeftBehind : List (Deed ν) → Machine β ν ω → Suspension ν → β → Prop
  | await {ds : List (Deed ν)} {m m' : Machine β ν ω} {p : Parked β} {outer : List (Parked β)}
    {what : Awaited ν} {body : β} (h : Course B m₀ ds m) (hr : m.sched.running = p :: outer)
    (hact : (B.act m.world m.sched.tasks p.body).1 = .await what body)
    (hmove : tick B m = .next m') :
    LeftBehind (ds ++ [m.deed B]) m' (suspension (events ds) p.id what) body
  | later {ds ds' : List (Deed ν)} {m m' : Machine β ν ω} {w : Suspension ν} {body : β}
    (h : LeftBehind ds m w body) (h' : Course B m ds' m') : LeftBehind (ds ++ ds') m' w body

variable (B m₀) in
/-- A body that waits is the one that the last await of its task left behind. -/
def Recalled (ds : List (Deed ν)) (m : Machine β ν ω) (p : Parked β) : Prop :=
  ∃ w, latest (events ds) p.id = some w ∧ LeftBehind B m₀ ds m w p.body

theorem Recalled.later {p : Parked β} (h : Recalled B m₀ ds m p) (h' : Course B m [d] m')
    (hd : ∀ a, d.event ≠ .awaited p.id a) : Recalled B m₀ (ds ++ [d]) m' p := by
  obtain ⟨w, hw, hleft⟩ := h
  refine ⟨w, ?_, hleft.later h'⟩
  rw [events_append]
  exact (latest_concat_of_ne hd).trans hw

theorem exists_running_of_awaited {id : TaskId} {a : Awaited ν} (h : m.event B = .awaited id a) :
    ∃ p outer, m.sched.running = p :: outer ∧ p.id = id := by
  unfold event at h
  split at h
  · split at h
    · cases h
    · split at h <;> cases h
  · rename_i id' body outer hr
    refine ⟨_, outer, hr, ?_⟩
    split at h
    case h_2 => exact (Event.awaited.inj h).1
    case h_6 => split at h <;> cases h
    all_goals cases h

theorem event_ne_awaited (hr : m.sched.running = []) (p : TaskId) (a : Awaited ν) :
    m.event B ≠ .awaited p a := by
  intro h
  obtain ⟨p', outer, hr', -⟩ := exists_running_of_awaited h
  rw [hr] at hr'
  cases hr'

/-- The next act of the innermost running body takes effect. -/
theorem act_eq_perform {p : Parked β} {outer : List (Parked β)}
    (hr : m.sched.running = p :: outer) :
    act B m = perform B { m with world := (B.act m.world m.sched.tasks p.body).2 } p.id outer
      (B.act m.world m.sched.tasks p.body).1 := by
  obtain ⟨s, w⟩ := m
  simp only at hr
  simp only [act, hr]

variable {maxSteps : ℕ} {world : ω}

/-- An act leaves all bodies that wait as they are, and the body that begins to wait with it is the
    one that it leaves behind. -/
theorem Course.left_behind_act (h : Course B ⟨.fresh maxSteps, world⟩ ds m)
    (hwait : m.sched.Everywhere (fun _ => True) (Recalled B ⟨.fresh maxSteps, world⟩ ds m))
    {p : Parked β} {outer : List (Parked β)} (hr : m.sched.running = p :: outer)
    (hmove : tick B m = .next m' ∨ ∃ why, tick B m = .halted why m') :
    m'.sched.Everywhere (fun _ => True)
      (Recalled B ⟨.fresh maxSteps, world⟩ (ds ++ [m.deed B]) m') := by
  have hlast : Course B m [m.deed B] m' := by
    obtain hmove | ⟨why, hmove⟩ := hmove
    · exact .next .refl hmove
    · exact .halted .refl hmove
  obtain ⟨failed, hacc⟩ := h.lasting_fresh Scheduler.lasting_accounted
    ⟨[], Scheduler.accounted_fresh maxSteps⟩
  have hold : m.sched.Everywhere (fun _ => True)
      (Recalled B ⟨.fresh maxSteps, world⟩ (ds ++ [m.deed B]) m') := by
    refine hwait.imp_waiting fun q hq hrecalled => hrecalled.later hlast fun a ha => ?_
    -- a body that runs does not wait
    obtain ⟨p', outer', hr', hid⟩ := exists_running_of_awaited ha
    have hcount := (hacc.of_running (p := p') (by simp [hr'])).2.2
    rw [hid] at hcount
    exact List.count_eq_zero.mp hcount hq
  have hact : act B m = .next m' ∨ ∃ why, act B m = .halted why m' := by
    rwa [tick_of_running (by simp [hr])] at hmove
  rw [act_eq_perform hr] at hact
  have hplaces : (B.act m.world m.sched.tasks p.body).1.Places (fun _ => True)
      (Recalled B ⟨.fresh maxSteps, world⟩ (ds ++ [m.deed B]) m') p.id m.sched.nextId := by
    cases ha : (B.act m.world m.sched.tasks p.body).1 with
    | await what body =>
      rw [ha] at hact
      obtain hmove | ⟨why, hmove⟩ := hmove
      · have hevent : m.event B = .awaited p.id what := by
          simp [event, hr, ha]
        refine ⟨_, ?_, .await h hr ha hmove⟩
        rw [events_append, events_cons, events_nil, deed, hevent, latest_awaited, if_pos rfl]
      · obtain hact | ⟨why, hact⟩ := hact
        · rw [tick_of_running (by simp [hr]), act_eq_perform hr, ha, hact] at hmove
          cases hmove
        · cases hact
    | spawn name child parent => exact ⟨trivial, fun _ => trivial⟩
    | _ => trivial
  have hperform : Progress.Everywhere (fun _ => True)
      (Recalled B ⟨.fresh maxSteps, world⟩ (ds ++ [m.deed B]) m')
      (perform B { m with world := (B.act m.world m.sched.tasks p.body).2 } p.id outer
        (B.act m.world m.sched.tasks p.body).1) :=
    everywhere_perform (hold.withRunning fun _ _ => trivial) hplaces
  obtain hact | ⟨why, hact⟩ := hact <;> rw [hact] at hperform <;> exact hperform

/-- At every moment of a course of a fresh machine, the bodies that wait are those that the last
    awaits of their tasks left behind. -/
theorem Course.left_behind (h : Course B ⟨.fresh maxSteps, world⟩ ds m) :
    m.sched.Everywhere (fun _ => True) (Recalled B ⟨.fresh maxSteps, world⟩ ds m) := by
  have keep {ds : List (Deed ν)} {m m' : Machine β ν ω} {d : Deed ν}
      (ih : m.sched.Everywhere (fun _ => True) (Recalled B ⟨.fresh maxSteps, world⟩ ds m))
      (hlast : Course B m [d] m') (hd : ∀ p a, d.event ≠ .awaited p a) :
      m.sched.Everywhere (fun _ => True) (Recalled B ⟨.fresh maxSteps, world⟩ (ds ++ [d]) m') :=
    ih.imp_waiting fun p _ hp => hp.later hlast (hd p.id)
  induction h with
  | refl => exact .fresh maxSteps
  | spawn name body _ hr ih =>
    exact (keep ih (.spawn name body .refl hr) (by simp)).start name trivial false
  | @run ds m name body _ hr ih =>
    have hstarted : (m.sched.start name body true).Everywhere _ _ :=
      (keep ih (.run name body .refl hr) (by simp)).start name trivial true
    exact ⟨hstarted.running, hstarted.ready, hstarted.waiting⟩
  | @next ds m m' h hmove ih =>
    obtain ⟨hr, -⟩ | ⟨r, rest, hr, hq, hl, rfl⟩ := tick_next_cases hmove
    · obtain ⟨p, outer, hr⟩ := List.exists_cons_of_ne_nil hr
      exact h.left_behind_act ih hr (.inl hmove)
    · have hold := keep ih (.next .refl hmove) (event_ne_awaited hr)
      refine ⟨fun _ _ => trivial, fun r' hr' => hold.ready r' ?_, hold.waiting⟩
      rw [hq]
      exact List.mem_cons_of_mem _ hr'
  | @halted ds m m' why h hmove ih =>
    obtain ⟨hr, -⟩ | ⟨r, rest, hr, hq, hl, -, rfl⟩ := tick_halted_cases hmove
    · obtain ⟨p, outer, hr⟩ := List.exists_cons_of_ne_nil hr
      exact h.left_behind_act ih hr (.inr ⟨why, hmove⟩)
    · exact keep ih (.halted .refl hmove) (event_ne_awaited hr)
  | drained _ hmove ih => exact (keep ih (.drained .refl hmove) (by simp)).report
  | returned _ hr hm hs ih => exact keep ih (.returned .refl hr hm hs) (by simp)

/-! ## Bodies that go on -/

variable (B m₀) in
/-- After the deeds of a course no body runs, and the one that the await `w` has left behind goes on
    with what it gets. -/
def GoesOn (ds : List (Deed ν)) (w : Suspension ν) (got : Delivery ν) (m' : Machine β ν ω) : Prop :=
  ∃ m body, Course B m₀ ds m ∧ m.sched.running = [] ∧ LeftBehind B m₀ ds m w body ∧
    tick B m = .next m' ∧ m'.sched.running = [⟨w.task, B.resume body got⟩]

/-- If no body runs and the machine moves, then a body goes on that was left behind. -/
theorem Course.goes_on_of_next (h : Course B ⟨.fresh maxSteps, world⟩ ds m)
    (hr : m.sched.running = []) (hmove : tick B m = .next m') :
    ∃ w got, latest (events ds) w.task = some w ∧ m.event B = .resumed w.task got ∧
      GoesOn B ⟨.fresh maxSteps, world⟩ ds w got m' := by
  obtain ⟨hact, -⟩ | ⟨r, rest, -, hq, hl, rfl⟩ := tick_next_cases hmove
  · exact absurd hr hact
  · obtain ⟨w, hw, hleft⟩ := h.left_behind.ready r (by simp [hq])
    have htask := latest_task hw
    refine ⟨w, m.sched.delivery r.awaited, by rwa [htask], ?_, m, _, h, hr, hleft, hmove, ?_⟩
    · simp [event, hr, Scheduler.next?, hq, htask, Nat.not_le_of_lt hl]
    · rw [htask]
      rfl

theorem next_of_resumed {p : TaskId} {got : Delivery ν} (h : m.event B = .resumed p got) :
    m.sched.running = [] ∧ ∃ m', tick B m = .next m' := by
  unfold event at h
  split at h
  · rename_i hr
    cases hq : m.sched.ready with
    | nil => simp [Scheduler.next?, hq] at h
    | cons r rest =>
      rw [tick_of_ready hr hq]
      simp only [Scheduler.next?, hq] at h
      split at h
      · cases h
      · rename_i hl
        exact ⟨hr, _, if_neg hl⟩
  · split at h
    case h_6 => split at h <;> cases h
    all_goals cases h

/-- Where a history says that a body went on, one did that was left behind. -/
theorem Course.goes_on {after : List (Deed ν)} {p : TaskId} {got : Delivery ν}
    (h : Course B ⟨.fresh maxSteps, world⟩ (ds ++ d :: after) m) (hd : d.event = .resumed p got) :
    ∃ w m', latest (events ds) p = some w ∧ GoesOn B ⟨.fresh maxSteps, world⟩ ds w got m' ∧
      Course B m' after m := by
  obtain ⟨m₁, h₁, hrest⟩ := h.split
  obtain ⟨m₂, hlast, h₂⟩ := hrest.uncons
  obtain ⟨rfl, hmove⟩ := hlast.move (.inl ⟨p, got, hd⟩)
  obtain ⟨hr, m', hnext⟩ := next_of_resumed hd
  obtain rfl : m' = m₂ := by
    obtain hmove | ⟨why, hmove⟩ := hmove <;> rw [hnext] at hmove <;> cases hmove
    rfl
  obtain ⟨w, got', hw, hevent, hgoes⟩ := h₁.goes_on_of_next hr hnext
  obtain ⟨rfl, rfl⟩ := Event.resumed.inj (hd.symm.trans hevent)
  exact ⟨w, m', hw, hgoes, h₂⟩

end Machine

end CoScript
