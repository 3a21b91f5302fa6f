import CoScript.Proofs.Task.Budget
import CoScript.Proofs.Task.Deliveries

/-!
# Drains under a limit

A machine gives as many turns as its limit says and no more, over all its calls. So a drain comes to
an end as soon as each turn does. One that ends at the limit loses nothing: it stops before a turn
that it does not give, and a later drain under a larger limit goes on as if there had been no stop.

Results:
* `turnsIn`, `Scheduler.Counted`: the turns of a history, and that the scheduler counts them.
* `Machine.GoesTo`: moves that go on, one after the other.
* `Machine.exists_drain`: a drain comes to an end if each turn does.
* `Machine.Stops`: what it means that a drain stops at the limit and loses nothing.
* `Machine.Course.drains_within_limit`: the whole.
-/

namespace CoScript

/-! ## Specification -/

/-- The number of turns in a history. -/
def turnsIn {ν : Type} (es : List (Event ν)) : ℕ :=
  es.countP fun
    | .resumed .. => true
    | _ => false

namespace Machine

variable {β ν ω : Type} [Inhabited ν]

/-- A machine with another limit. -/
def withLimit (m : Machine β ν ω) (limit : ℕ) : Machine β ν ω :=
  m.withBudget m.sched.steps limit

variable (B : Behaviour β ν ω)

/-- The running bodies of a machine, and those they start, come to wait, to their ends, or to a
    failure. -/
def StepEnds (m : Machine β ν ω) : Prop :=
  ∃ fuel, (iterate (act B) fuel m).isSome

/-- A drain that follows a history stops at the limit, and loses nothing. The queue holds the waits
    that have come to an end and that no body has gone on from, in order. Rejections are still
    listed, and all those that nothing waited for are. And a drain of what is left, under a larger
    limit, does what remains of the drain that has the larger limit from the beginning. -/
structure Stops (es : List (Event ν)) (m : Machine β ν ω) (fuel : ℕ) (m' : Machine β ν ω) :
    Prop where
  steps_eq : m'.sched.steps = m'.sched.maxSteps
  running_nil : m'.sched.running = []
  ready_ne : m'.sched.ready ≠ []
  queue : ∃ q, readied (es ++ drainEvents B fuel m) = resumed (es ++ drainEvents B fuel m) ++ q ∧
    m'.sched.ready.map (fun r => (r.parked.id, r.awaited)) = q.map fun w => (w.task, w.awaited)
  nodup : (readied (es ++ drainEvents B fuel m)).Nodup
  rejected : m.sched.rejected <+: m'.sched.rejected
  unhandled : m'.sched.unhandled = m.sched.unhandled
  listed : ∀ id ∈ rejections (es ++ drainEvents B fuel m),
    m'.sched.isObserved id = true ∨ id ∈ m'.sched.unhandled ∨ id ∈ m'.sched.rejected
  goes_on : ∃ n es', drainEvents B fuel m = es' ++ [.limitReached] ∧
    ∀ limit, m'.sched.maxSteps ≤ limit → ∀ k,
      drain B (n + k) (m.withLimit limit) = drain B k (m'.withLimit limit) ∧
      drainEvents B (n + k) (m.withLimit limit) = es' ++ drainEvents B k (m'.withLimit limit)

end Machine

/-! ## Turns are counted -/

section Turns

variable {ν : Type} {es : List (Event ν)} {e : Event ν}

theorem turnsIn_append (es es' : List (Event ν)) :
    turnsIn (es ++ es') = turnsIn es + turnsIn es' :=
  List.countP_append

theorem turnsIn_singleton (he : ∀ id got, e ≠ .resumed id got) : turnsIn [e] = 0 := by
  cases e with
  | resumed id got => exact absurd rfl (he id got)
  | _ => rfl

end Turns

namespace Scheduler

variable {β ν : Type} {s s' : Scheduler β ν} {limit : ℕ}

@[simp] theorem suspend_steps [Inhabited ν] (s : Scheduler β ν) (p : Parked β) (a : Awaited ν) :
    (s.suspend p a).1.steps = s.steps := by
  obtain ⟨v, h⟩ | ⟨_, _, _, _, _, h⟩ | ⟨_, _, _, _, _, h⟩ := s.suspend_cases p a <;> rw [h] <;> rfl

@[simp] theorem suspend_maxSteps [Inhabited ν] (s : Scheduler β ν) (p : Parked β) (a : Awaited ν) :
    (s.suspend p a).1.maxSteps = s.maxSteps := by
  obtain ⟨v, h⟩ | ⟨_, _, _, _, _, h⟩ | ⟨_, _, _, _, _, h⟩ := s.suspend_cases p a <;> rw [h] <;> rfl

@[simp] theorem settle_steps (s : Scheduler β ν) (id : TaskId) (state : TaskState ν) :
    (s.settle id state).steps = s.steps := by
  unfold settle; split <;> rfl

@[simp] theorem settle_maxSteps (s : Scheduler β ν) (id : TaskId) (state : TaskState ν) :
    (s.settle id state).maxSteps = s.maxSteps := by
  unfold settle; split <;> rfl

/-- The turns of a history are counted, and they are within the limit. -/
structure Counted (limit : ℕ) (es : List (Event ν)) (s : Scheduler β ν) : Prop where
  steps_eq : turnsIn es = s.steps
  steps_le : s.steps ≤ s.maxSteps
  maxSteps_eq : s.maxSteps = limit

theorem counted_fresh (limit : ℕ) : Counted limit [] (fresh limit : Scheduler β ν) :=
  ⟨rfl, Nat.zero_le _, rfl⟩

/-- An event that gives no turn. -/
theorem Counted.same {es : List (Event ν)} {e : Event ν} (h : Counted limit es s)
    (he : ∀ id got, e ≠ .resumed id got) (hsteps : s'.steps = s.steps)
    (hmax : s'.maxSteps = s.maxSteps) : Counted limit (es ++ [e]) s' := by
  obtain ⟨heq, hle, hlimit⟩ := h
  refine ⟨?_, by omega, by omega⟩
  rw [turnsIn_append, turnsIn_singleton he]
  omega

/-- No move gives a turn that is not counted, and none gives one beyond the limit. -/
theorem lasting_counted [Inhabited ν] (limit : ℕ) :
    Lasting (Counted limit : List (Event ν) → Scheduler β ν → Prop) where
  step {es e s s'} h hstep := by
    cases hstep with
    | resume body' hr hq hl =>
      obtain ⟨heq, -, hlimit⟩ := h
      refine ⟨?_, hl, hlimit⟩
      rw [turnsIn_append, heq]
      rfl
    | await what body' hr => exact h.same (by simp) (by simp) (by simp)
    | settle state hr hs hm => exact h.same (by simp) (by simp) (by simp)
    | _ => exact h.same (by simp) rfl rfl
  dropped h := h.same (by simp) rfl rfl

/-- Only a report takes a rejection from the list. -/
theorem Step.rejected_prefix [Inhabited ν] {e : Event ν} (h : Step s e s')
    (hbusy : s.running ≠ [] ∨ s.ready ≠ []) : s.rejected <+: s'.rejected := by
  cases h with
  | @await id _ outer what body' hr =>
    obtain ⟨v, he⟩ | ⟨_, _, _, _, _, he⟩ | ⟨_, _, _, _, _, he⟩ :=
      suspend_cases { s with running := outer } ⟨id, body'⟩ what <;> rw [he] <;>
      exact List.prefix_rfl
  | settle state hr hs hm =>
    unfold Scheduler.settle
    split
    · exact List.prefix_rfl
    · dsimp only
      split
      · exact List.prefix_append ..
      · exact List.prefix_rfl
  | drain hr hq => simp [hr, hq] at hbusy
  | _ => exact List.prefix_rfl

end Scheduler

namespace Machine

variable {β ν ω : Type} [Inhabited ν] {B : Behaviour β ν ω} {m m₁ m' : Machine β ν ω} {fuel : ℕ}
  {es : List (Event ν)} {limit : ℕ}

/-! ## Moves that go on -/

variable (B) in
/-- Moves that go on, one after the other, with their events. -/
inductive GoesTo : List (Event ν) → Machine β ν ω → Machine β ν ω → Prop
  | refl (m : Machine β ν ω) : GoesTo [] m m
  | step {m m₁ m' : Machine β ν ω} {es : List (Event ν)} (hmove : tick B m = .next m₁)
    (h : GoesTo es m₁ m') : GoesTo (m.event B :: es) m m'

/-- A run of moves is a number of moves that go on and one that does not. -/
theorem goesTo_of_iterate {out : Except Halt Unit} (h : iterate (tick B) fuel m = some (out, m')) :
    ∃ es m₁, GoesTo B es m m₁ ∧
      (out = .ok () ∧ m₁ = m' ∧ tick B m₁ = .idle m' ∧ trace B (tick B) fuel m = es ∨
        ∃ why, out = .error why ∧ tick B m₁ = .halted why m' ∧
          trace B (tick B) fuel m = es ++ [m₁.event B]) := by
  induction fuel, m, h using iterate_induction with
  | next fuel m m₁ hmove _ ih =>
    obtain ⟨es, m₂, hgoes, hend⟩ := ih
    refine ⟨m.event B :: es, m₂, .step hmove hgoes, ?_⟩
    rw [trace_next hmove]
    simpa using hend
  | idle fuel m hmove hout =>
    obtain ⟨rfl, -⟩ := tick_idle hmove
    exact ⟨[], m', .refl m', .inl ⟨hout, rfl, hmove, trace_idle hmove fuel⟩⟩
  | halted fuel m why hmove hout =>
    exact ⟨[], m, .refl m, .inr ⟨why, hout, hmove, trace_halted hmove fuel⟩⟩

namespace GoesTo

theorem trans {es' : List (Event ν)} (h : GoesTo B es m m₁) (h' : GoesTo B es' m₁ m') :
    GoesTo B (es ++ es') m m' := by
  induction h with
  | refl => exact h'
  | step hmove _ ih => exact .step hmove (ih h')

/-- A run of moves begins with those that go on. -/
theorem iterate_add (h : GoesTo B es m m') (k : ℕ) :
    iterate (tick B) (es.length + k) m = iterate (tick B) k m' ∧
      trace B (tick B) (es.length + k) m = es ++ trace B (tick B) k m' := by
  induction h with
  | refl => simp
  | @step m m₁ m' es hmove _ ih =>
    have hlen : (m.event B :: es).length + k = es.length + k + 1 := by
      simp only [List.length_cons]
      omega
    rw [hlen, iterate, trace, hmove]
    exact ⟨ih.1, congrArg (m.event B :: ·) ih.2⟩

/-- So does a drain. -/
theorem drain_add (h : GoesTo B es m m') (k : ℕ) :
    drain B (es.length + k) m = drain B k m' ∧
      drainEvents B (es.length + k) m = es ++ drainEvents B k m' := by
  obtain ⟨hiterate, htrace⟩ := h.iterate_add k
  have hdrain : drain B (es.length + k) m = drain B k m' := by rw [drain, hiterate, drain]
  exact ⟨hdrain, by rw [drainEvents, htrace, hdrain, drainEvents, List.append_assoc]⟩

end GoesTo

/-- A turn from the queue, while there is one left. -/
theorem event_of_ready {r : Ready β ν} {rest : List (Ready β ν)} (hr : m.sched.running = [])
    (hq : m.sched.ready = r :: rest) : m.event B =
      if m.sched.maxSteps ≤ m.sched.steps then .limitReached
      else .resumed r.parked.id (m.sched.delivery r.awaited) := by
  simp only [event, hr, Scheduler.next?, hq]

/-- A move that goes on does so under a larger limit, and nothing else happens in it. -/
theorem tick_withLimit (h : tick B m = .next m') (hlimit : m.sched.maxSteps ≤ limit) :
    tick B (m.withLimit limit) = .next (m'.withLimit limit) ∧
      (m.withLimit limit).event B = m.event B := by
  obtain ⟨hr, hact⟩ | ⟨r, rest, hr, hq, hleft, rfl⟩ := tick_next_cases h
  · constructor
    · rw [tick_of_running (m := m.withLimit limit) hr, withLimit,
        act_next_withBudget hact, withLimit,
        (act_next_budget hact).1]
    · obtain ⟨p, outer, hp⟩ := List.exists_cons_of_ne_nil hr
      have hp' : (m.withLimit limit).sched.running = p :: outer := hp
      simp only [event, hp, hp']
      rfl
  · have hleft' : ¬ limit ≤ m.sched.steps := by omega
    rw [tick_of_ready (m := m.withLimit limit) hr hq,
      event_of_ready (m := m.withLimit limit) hr hq, event_of_ready hr hq,
      if_neg (Nat.not_le_of_lt hleft)]
    exact ⟨if_neg hleft', if_neg hleft'⟩

/-- So do moves one after the other. -/
theorem GoesTo.withLimit (h : GoesTo B es m m') (hlimit : m.sched.maxSteps ≤ limit) :
    GoesTo B es (m.withLimit limit) (m'.withLimit limit) := by
  induction h with
  | refl m => exact .refl _
  | @step m m₁ m' es hmove _ ih =>
    obtain ⟨hmove', hevent⟩ := tick_withLimit hmove hlimit
    rw [← hevent]
    exact .step hmove' (ih ((tick_turn hmove).1 ▸ hlimit))

/-! ## Drains come to an end -/

/-- Moves come to an end if they do from where the running bodies have stopped. Bodies do not change
    how many turns are left. -/
theorem exists_iterate_of_acts {out : Except Halt Unit}
    (h : iterate (act B) fuel m = some (out, m'))
    (hrest : ∀ es m₁, GoesTo B es m m₁ → m₁.sched.running = [] →
      m₁.sched.steps = m.sched.steps → m₁.sched.maxSteps = m.sched.maxSteps →
      ∃ fuel, (iterate (tick B) fuel m₁).isSome) :
    ∃ fuel, (iterate (tick B) fuel m).isSome := by
  induction fuel, m, h using iterate_induction with
  | next fuel m m₁ hmove _ ih =>
    have hnext := ticks_act.next hmove
    obtain ⟨hsteps₁, hmax₁⟩ := act_next_budget hmove
    obtain ⟨fuel', hfuel'⟩ := ih fun es m₂ hgoes hr hsteps hmax =>
      hrest _ m₂ (.step hnext hgoes) hr (hsteps.trans hsteps₁) (hmax.trans hmax₁)
    exact ⟨fuel' + 1, by rwa [iterate, hnext]⟩
  | idle fuel m hmove => exact hrest [] m (.refl m) (act_idle hmove).2 rfl rfl
  | halted fuel m why hmove => exact ⟨1, by rw [iterate, ticks_act.halted hmove]; rfl⟩

/-- Moves come to an end if each turn does: there are no more turns than the limit has left. -/
theorem exists_iterate (h : ∀ es m', GoesTo B es m m' → m'.StepEnds B) :
    ∃ fuel, (iterate (tick B) fuel m).isSome := by
  generalize hleft : m.sched.maxSteps - m.sched.steps = left
  induction left using Nat.strongRecOn generalizing m with
  | ind left ih =>
    obtain ⟨fuel, hfuel⟩ := h [] m (.refl m)
    obtain ⟨⟨out, m'⟩, hi⟩ := Option.isSome_iff_exists.mp hfuel
    refine exists_iterate_of_acts hi fun es m₁ hgoes hr hsteps hmax => ?_
    cases hq : m₁.sched.ready with
    | nil => exact ⟨1, by rw [iterate, tick_of_rest hr hq]; rfl⟩
    | cons r rest =>
      have hmove := tick_of_ready (B := B) hr hq
      by_cases hl : m₁.sched.maxSteps ≤ m₁.sched.steps
      · rw [if_pos hl] at hmove
        exact ⟨1, by rw [iterate, hmove]; rfl⟩
      · rw [if_neg hl] at hmove
        obtain ⟨fuel', hfuel'⟩ := @ih _
          (show m₁.sched.maxSteps - (m₁.sched.steps + 1) < left by omega) (m₁.turn B r rest)
          (fun es' m'' h' => h _ m'' (hgoes.trans (.step hmove h'))) rfl
        exact ⟨fuel' + 1, by rwa [iterate, hmove]⟩

/-- So a drain comes to an end. -/
theorem exists_drain (h : ∀ es m', GoesTo B es m m' → m'.StepEnds B) :
    ∃ fuel, (drain B fuel m).isSome := by
  obtain ⟨fuel, hfuel⟩ := exists_iterate h
  refine ⟨fuel, ?_⟩
  rw [drain]
  split
  · rfl
  · exact hfuel

/-! ## How drains end -/

/-- A fault that halts a running body is written down as that of the main task. -/
theorem event_of_act_fault {f : Fault} (h : act B m = .halted (.fault f) m') :
    ∃ id, m.event B = .mainFailed id f ∧ m.sched.main = some id := by
  obtain ⟨s, w⟩ := m
  simp only [act, event] at h ⊢
  cases hr : s.running with
  | nil => simp [hr] at h
  | cons r outer =>
    simp only [hr] at h ⊢
    cases ha : (B.act w s.tasks r.body).1 with
    | fail g =>
      simp only [ha, perform] at h ⊢
      split at h
      · rename_i hmain
        obtain ⟨hfault, -⟩ := Progress.halted.inj h
        obtain rfl := Halt.fault.inj hfault
        exact ⟨r.id, if_pos hmain, hmain⟩
      · cases h
    | _ => simp [ha, perform] at h

/-- A run of moves that is cut short has come to the limit, or the main task has failed, or a body
    has given up. At the limit nothing moves. -/
theorem tick_halted {why : Halt} (h : tick B m = .halted why m') :
    m.event B = .limitReached ∧ why = .fault (.limitReached m.sched.maxSteps) ∧ m' = m ∧
        m.sched.running = [] ∧ m.sched.ready ≠ [] ∧ m.sched.maxSteps ≤ m.sched.steps ∨
      (∃ id f, m.event B = .mainFailed id f ∧ why = .fault f ∧ m.sched.main = some id) ∨
      m.event B = .aborted ∧ ∃ cause, why = .aborted cause := by
  obtain ⟨-, hact⟩ | ⟨r, rest, hr, hq, hl, hwhy, rfl⟩ := tick_halted_cases h
  · cases why with
    | aborted cause => exact .inr (.inr ⟨(act_aborted hact).1, cause, rfl⟩)
    | fault f =>
      obtain ⟨id, hevent, hmain⟩ := event_of_act_fault hact
      exact .inr (.inl ⟨id, f, hevent, rfl, hmain⟩)
  · exact .inl ⟨(event_of_ready hr hq).trans (if_pos hl), hwhy, rfl, hr, by simp [hq], hl⟩

/-- Bodies run, or wait for their turn, when a move goes on. -/
theorem busy_of_tick (h : tick B m = .next m') : m.sched.running ≠ [] ∨ m.sched.ready ≠ [] := by
  obtain ⟨hr, -⟩ | ⟨r, rest, -, hq, -⟩ := tick_next_cases h
  · exact .inl hr
  · exact .inr (by simp [hq])

/-- Moves that go on take no rejection from the list, and report none. -/
theorem GoesTo.rejected (h : GoesTo B es m m') :
    m.sched.rejected <+: m'.sched.rejected ∧ m'.sched.unhandled = m.sched.unhandled := by
  induction h with
  | refl => exact ⟨List.prefix_rfl, rfl⟩
  | step hmove _ ih =>
    have hstep := tick_next hmove
    have hbusy := busy_of_tick hmove
    exact ⟨(hstep.rejected_prefix hbusy).trans ih.1, ih.2.trans (hstep.unhandled_eq hbusy)⟩

section Courses

variable {ds : List (Deed ν)} {world : ω}

/-- The turns of a course of a fresh machine are counted. -/
theorem Course.counted (h : Course B ⟨.fresh limit, world⟩ ds m) :
    m.sched.Counted limit (events ds) :=
  h.lasting_fresh (Scheduler.lasting_counted limit) (Scheduler.counted_fresh limit)

/-- A drain that has come to the limit loses nothing. -/
theorem Course.stops (h : Course B ⟨.fresh limit, world⟩ ds m)
    {why : Halt} (hd : drain B fuel m = some (.error why, m')) (hgoes : GoesTo B es m m')
    (htrace : trace B (tick B) fuel m = es ++ [.limitReached]) (hr : m'.sched.running = [])
    (hq : m'.sched.ready ≠ []) (hl : m'.sched.maxSteps ≤ m'.sched.steps) :
    Stops B (events ds) m fuel m' := by
  obtain ⟨ds', hevents, h'⟩ := h.drain_call hd
  have hcounted := h.counted
  have hcounted' := h'.counted
  have hdelivers := h'.delivers
  have hreported := h'.lasting_fresh Scheduler.lasting_reported (Scheduler.reported_fresh limit)
  rw [events_append, hevents] at hdelivers hreported
  exact {
    steps_eq := Nat.le_antisymm hcounted'.steps_le hl
    running_nil := hr
    ready_ne := hq
    queue := hdelivers.queue
    nodup := hdelivers.nodup
    rejected := hgoes.rejected.1
    unhandled := hgoes.rejected.2
    listed := fun id hid => by
      by_cases hlisted : m'.sched.isObserved id = true ∨ id ∈ m'.sched.unhandled
      · exact hlisted.imp_right .inl
      · rw [not_or] at hlisted
        have hmem : id ∈ m'.sched.rejected.filter (!m'.sched.isObserved ·) := by
          rw [hreported.listed]
          exact List.mem_filter.mpr ⟨hid, by simpa using hlisted⟩
        exact .inr (.inr (List.mem_of_mem_filter hmem))
    goes_on := by
      refine ⟨es.length, es, (drain_eq_error hd).2.trans htrace, fun limit' hlimit k => ?_⟩
      refine (hgoes.withLimit ?_).drain_add k
      rwa [hcounted.maxSteps_eq, ← hcounted'.maxSteps_eq] }

/-- At every moment of every course of a fresh machine, whatever its bodies do: the machine has
    counted the turns that it has given, which are within its limit. A drain comes to its end if
    each turn does. It gives no more turns than are left, and it ends in one of four ways: the queue
    is empty, or the machine stops at its limit and loses nothing, or the main task fails, or a body
    gives up. -/
theorem Course.drains_within_limit (h : Course B ⟨.fresh limit, world⟩ ds m) :
    turnsIn (events ds) = m.sched.steps ∧ m.sched.steps ≤ limit ∧
    ((∀ es m', GoesTo B es m m' → m'.StepEnds B) → ∃ fuel, (drain B fuel m).isSome) ∧
    ∀ fuel, turnsIn (drainEvents B fuel m) ≤ limit - m.sched.steps ∧
      ∀ out m', drain B fuel m = some (out, m') →
        turnsIn (events ds ++ drainEvents B fuel m) = m'.sched.steps ∧ m'.sched.steps ≤ limit ∧
        (out = .ok () ∧ m'.sched.ready = [] ∨
          out = .error (.fault (.limitReached limit)) ∧ m'.sched.steps = limit ∧
            Stops B (events ds) m fuel m' ∨
          (∃ id f, out = .error (.fault f) ∧ .mainFailed id f ∈ drainEvents B fuel m) ∨
          (∃ cause, out = .error (.aborted cause)) ∧ .aborted ∈ drainEvents B fuel m) := by
  obtain ⟨hsteps, hle, hlimit⟩ := h.counted
  rw [hlimit] at hle
  refine ⟨hsteps, hle, exists_drain, fun fuel => ⟨?_, fun out m' hd => ?_⟩⟩
  · obtain ⟨m₁, hm₁, -⟩ := h.moves ticks_tick faithful_tick fuel
    obtain ⟨hsteps₁, hle₁, hlimit₁⟩ := hm₁.counted
    rw [events_append, events_deeds, turnsIn_append] at hsteps₁
    have hreport : turnsIn (drainEvents B fuel m) = turnsIn (trace B (tick B) fuel m) := by
      rw [drainEvents, turnsIn_append]
      split <;> rfl
    omega
  · obtain ⟨ds', hevents, h'⟩ := h.drain_call hd
    obtain ⟨hsteps', hle', hlimit'⟩ := h'.counted
    rw [events_append, hevents] at hsteps'
    refine ⟨hsteps', hlimit' ▸ hle', ?_⟩
    cases out with
    | ok u =>
      obtain ⟨m₁, -, -, hready, hsched, -⟩ := drain_eq_ok hd
      exact .inl ⟨rfl, hsched ▸ hready⟩
    | error why =>
      obtain ⟨hi, htrace⟩ := drain_eq_error hd
      obtain ⟨es, m₁, hgoes, ⟨hok, -⟩ | ⟨why', hwhy, hhalt, htrace'⟩⟩ := goesTo_of_iterate hi
      · cases hok
      · obtain rfl := Except.error.inj hwhy
        rw [htrace'] at htrace
        obtain ⟨hevent, rfl, rfl, hr, hq, hl⟩ | ⟨id, f, hevent, rfl, -⟩ | ⟨hevent, cause, rfl⟩ :=
          tick_halted hhalt
        · have hstops := h.stops hd hgoes (hevent ▸ htrace') hr hq hl
          exact .inr (.inl ⟨by rw [hlimit'], hstops.steps_eq.trans hlimit', hstops⟩)
        · exact .inr (.inr (.inl ⟨id, f, rfl, by simp [htrace, hevent]⟩))
        · exact .inr (.inr (.inr ⟨⟨cause, rfl⟩, by simp [htrace, hevent]⟩))

end Courses

/-! ## Bodies that pause -/

/-- Bodies that wait for their turn a number of times and then end. -/
def pausing : Behaviour ℕ Unit Unit where
  act _ _
    | 0 => (.finish (), ())
    | n + 1 => (.await (.value ()) n, ())
  resume n _ := n
  note _ world := world

/-- Each of them stops at once. -/
theorem stepEnds_pausing (m : Machine ℕ Unit Unit) : m.StepEnds pausing := by
  generalize hr : m.sched.running = running
  induction running generalizing m with
  | nil => exact ⟨1, by simp [iterate, act, hr]⟩
  | cons p outer ih =>
    have hnext : ∃ m', act pausing m = .next m' ∧ m'.sched.running = outer := by
      obtain ⟨s, w⟩ := m
      obtain ⟨id, n⟩ := p
      simp only at hr
      cases n with
      | zero => exact ⟨_, by simp only [act, hr]; rfl, by simp [settle, withRunning]⟩
      | succ n => exact ⟨_, by simp only [act, hr]; rfl, by simp [suspend, withRunning]⟩
    obtain ⟨m', hmove, hm'⟩ := hnext
    obtain ⟨fuel, hfuel⟩ := ih m' hm'
    exact ⟨fuel + 1, by rwa [iterate, hmove]⟩

/-- A machine with two turns, whose main body takes three. -/
def short : Machine ℕ Unit Unit :=
  startMain pausing "main" 3 ⟨.fresh 2, ()⟩

/-- What a drain leaves of it. -/
def cut : Machine ℕ Unit Unit :=
  ⟨⟨#[⟨"main", .pending, [], true⟩], [⟨⟨⟨0⟩, 0⟩, .value ()⟩], [], some ⟨0⟩, 2, 2, [], []⟩, ()⟩

theorem drain_short : drain pausing 9 short = some (.error (.fault (.limitReached 2)), cut) := rfl

theorem drains_within_limit_short : (∃ fuel, (drain pausing fuel short).isSome) ∧
    Stops pausing [.started ⟨0⟩ true] short 9 cut := by
  have hcourse : Course pausing ⟨.fresh 2, ()⟩ [⟨.started ⟨0⟩ true, none⟩] short :=
    .run "main" 3 .refl rfl
  obtain ⟨-, -, hends, hdrains⟩ := hcourse.drains_within_limit
  refine ⟨hends fun _ m _ => stepEnds_pausing m, ?_⟩
  have hevents : drainEvents pausing 9 short =
      [.awaited ⟨0⟩ (.value ()), .resumed ⟨0⟩ (.value ()), .awaited ⟨0⟩ (.value ()),
        .resumed ⟨0⟩ (.value ()), .awaited ⟨0⟩ (.value ()), .limitReached] := rfl
  obtain ⟨-, -, ⟨hok, -⟩ | ⟨-, -, hstops⟩ | ⟨id, f, -, hmem⟩ | ⟨-, hmem⟩⟩ :=
    (hdrains 9).2 _ _ drain_short
  · cases hok
  · exact hstops
  · simp [hevents] at hmem
  · simp [hevents] at hmem

end Machine

end CoScript
