import CoScript.Proofs.Task.Limit

/-!
# Failures of tasks

A step of a task lasts from its start, or from its turn in the queue, until its body waits or ends;
bodies that it starts run inside. A step that ends in a failure ends its task and does nothing else,
unless the task is the main one: what waited for the task joins the queue, the bodies around it go
on where they were, and so does the queue. So whoever starts a task gets the task, whatever happens
in it.

Results:
* `Machine.actAbove`, `Machine.MovesAbove`: the moves of a step.
* `Machine.Rejects`: what a failure does, and what it leaves alone.
* `Machine.iterate_actAbove`: the step of a new task lets no failure out.
* `Machine.Course.failures_isolated`: the whole.
-/

namespace CoScript

/-! ## Specification -/

namespace Delivery

variable {ν : Type}

/-- The state of a task with this outcome. A fault gets the label of the task unless it has one. -/
def settles (label : String) : Delivery ν → TaskState ν
  | value v => .fulfilled v
  | thrown v pos => .thrown v pos
  | failed f => .failed (f.inTask label)

/-- What the observer of a task with this outcome is told. -/
def notices (label : String) (d : Delivery ν) : List Notice :=
  match d with
  | failed f => [.failed label (f.inTask label), .settled label (d.settles label).text]
  | _ => [.settled label (d.settles label).text]

end Delivery

namespace Machine

variable {β ν ω : Type} [Inhabited ν] (B : Behaviour β ν ω)

/-- The innermost running body acts if there are more than `n`: the step of the one above the `n`
    outermost. -/
def actAbove (n : ℕ) (m : Machine β ν ω) : Progress (Machine β ν ω) :=
  if m.sched.running.length ≤ n then .idle m else act B m

/-- Moves of the bodies above the `n` outermost, one after the other. -/
inductive MovesAbove (n : ℕ) : Machine β ν ω → Machine β ν ω → Prop
  | refl (m : Machine β ν ω) : MovesAbove n m m
  | step {m m₁ m' : Machine β ν ω} (hmove : actAbove B n m = .next m₁) (h : MovesAbove n m₁ m') :
    MovesAbove n m m'

/-- A task `t`, whose body runs inside `outer`, ends with a failure, and nothing else changes: not
    the other tasks nor what was in the queue, not the turns nor the bodies around it. What waited
    for the task joins the queue, in order. If nothing did, the task is listed. -/
structure Rejects (m m' : Machine β ν ω) (p : Parked β) (outer : List (Parked β))
    (failure : Delivery ν) (t : Task β ν) : Prop where
  before : m.sched.tasks[p.id.index]? = some t
  pending : t.state = .pending
  rejected : (failure.settles (m.sched.labelOf p.id)).isRejected = true
  task : m'.sched.tasks[p.id.index]? =
    some { t with state := failure.settles (m.sched.labelOf p.id), waiters := [] }
  others : ∀ i, i ≠ p.id.index → m'.sched.tasks[i]? = m.sched.tasks[i]?
  ready : m'.sched.ready = m.sched.ready ++ t.waiters.map (⟨·, .task p.id⟩)
  listed : m'.sched.rejected = m.sched.rejected ++ if t.waiters.isEmpty then [p.id] else []
  unhandled : m'.sched.unhandled = m.sched.unhandled
  steps : m'.sched.steps = m.sched.steps
  maxSteps : m'.sched.maxSteps = m.sched.maxSteps
  main : m'.sched.main = m.sched.main
  running : m'.sched.running = outer
  world : m'.world = (failure.notices (m.sched.labelOf p.id)).foldl (fun w n => B.note n w)
    (B.act m.world m.sched.tasks p.body).2

end Machine

/-! ## The bodies of a step -/

namespace Scheduler

variable {β ν : Type} [Inhabited ν] {s s' : Scheduler β ν} {e : Event ν} {p : Parked β}
  {rest base : List (Parked β)} {k : ℕ} {id : TaskId}

/-- An act changes only the innermost body: it stops, it goes on, or it goes on below a new one. -/
theorem Step.running_cases (h : Step s e s') (hr : s.running = p :: rest) :
    s'.running = rest ∨ (∃ body, s'.running = ⟨p.id, body⟩ :: rest) ∨
      ∃ child body, s'.running = ⟨s.nextId, child⟩ :: ⟨p.id, body⟩ :: rest := by
  cases h with
  | proceed body' hr' =>
    obtain ⟨rfl, rfl⟩ := List.cons.inj (hr.symm.trans hr')
    exact .inr (.inl ⟨body', rfl⟩)
  | child name child parent hr' =>
    obtain ⟨rfl, rfl⟩ := List.cons.inj (hr.symm.trans hr')
    exact .inr (.inr ⟨child, parent, rfl⟩)
  | await what body' hr' =>
    obtain ⟨rfl, rfl⟩ := List.cons.inj (hr.symm.trans hr')
    exact .inl (suspend_running ..)
  | settle state hr' hs hm =>
    obtain ⟨rfl, rfl⟩ := List.cons.inj (hr.symm.trans hr')
    exact .inl (settle_running ..)
  | mainFails f hr' hm =>
    obtain ⟨rfl, rfl⟩ := List.cons.inj (hr.symm.trans hr')
    exact .inl rfl
  | _ => simp_all

/-- Over the bodies `base` there is a step of a task that has not come to its end or has just
    done so: the body of the task, and over it only bodies of tasks that are younger than the
    first `k`. -/
def Over (k : ℕ) (id : TaskId) (base : List (Parked β)) (s : Scheduler β ν) : Prop :=
  s.running = base ∨
    ∃ above body, s.running = above ++ ⟨id, body⟩ :: base ∧ ∀ q ∈ above, k ≤ q.id.index

/-- An act inside a step leaves it where it is. -/
theorem Over.step (h : s.Over k id base) (hk : k ≤ s.tasks.size)
    (hlen : base.length < s.running.length) (hstep : Step s e s') : s'.Over k id base := by
  obtain hr | ⟨above, body, hr, habove⟩ := h
  · rw [hr] at hlen
    exact absurd hlen (Nat.lt_irrefl _)
  · cases above with
    | nil =>
      obtain hr' | ⟨body', hr'⟩ | ⟨child, body', hr'⟩ := hstep.running_cases hr
      · exact .inl hr'
      · exact .inr ⟨[], body', hr', by simp⟩
      · exact .inr ⟨[⟨s.nextId, child⟩], body', hr', by simpa [nextId] using hk⟩
    | cons q above =>
      obtain ⟨hq, habove⟩ := List.forall_mem_cons.mp habove
      obtain hr' | ⟨body', hr'⟩ | ⟨child, body', hr'⟩ := hstep.running_cases hr
      · exact .inr ⟨above, body, hr', habove⟩
      · exact .inr ⟨⟨q.id, body'⟩ :: above, body, hr', List.forall_mem_cons.mpr ⟨hq, habove⟩⟩
      · refine .inr ⟨⟨s.nextId, child⟩ :: ⟨q.id, body'⟩ :: above, body, hr', ?_⟩
        exact List.forall_mem_cons.mpr ⟨hk, List.forall_mem_cons.mpr ⟨hq, habove⟩⟩

omit [Inhabited ν] in
/-- A step with no body left has come to its end. -/
theorem Over.running_eq (h : s.Over k id base) (hlen : s.running.length ≤ base.length) :
    s.running = base := by
  obtain hr | ⟨above, body, hr, -⟩ := h
  · exact hr
  · rw [hr] at hlen
    simp only [List.length_append, List.length_cons] at hlen
    omega

omit [Inhabited ν] in
/-- The innermost body of a step is that of the task itself, or of a younger one. -/
theorem Over.innermost (h : s.Over k id base) (hr : s.running = p :: rest)
    (hlen : base.length < s.running.length) : p.id = id ∨ k ≤ p.id.index := by
  obtain hr' | ⟨above, body, hr', habove⟩ := h
  · rw [hr'] at hlen
    exact absurd hlen (Nat.lt_irrefl _)
  · cases above with
    | nil =>
      obtain ⟨rfl, -⟩ := List.cons.inj (hr.symm.trans hr')
      exact .inl rfl
    | cons q above =>
      obtain ⟨rfl, -⟩ := List.cons.inj (hr.symm.trans hr')
      exact .inr (habove p (List.mem_cons_self ..))

omit [Inhabited ν] in
/-- The last body of a step is that of the task itself. -/
theorem Over.last (h : s.Over k id base) (hr : s.running = p :: rest)
    (hlen : rest.length = base.length) : p.id = id ∧ rest = base := by
  obtain hr' | ⟨above, body, hr', -⟩ := h
  · have hcount := congrArg List.length (hr.symm.trans hr')
    simp only [List.length_cons] at hcount
    omega
  · cases above with
    | nil =>
      obtain ⟨rfl, rfl⟩ := List.cons.inj (hr.symm.trans hr')
      exact ⟨rfl, rfl⟩
    | cons q above =>
      have hcount := congrArg List.length (hr.symm.trans hr')
      simp only [List.length_cons, List.length_append] at hcount
      omega

end Scheduler

namespace Machine

variable {β ν ω : Type} [Inhabited ν] {B : Behaviour β ν ω} {m m₁ m' : Machine β ν ω} {fuel k n : ℕ}
  {id : TaskId} {base outer : List (Parked β)} {p : Parked β}

/-! ## Steps of new tasks -/

/-- With no bodies around it, a step lasts as long as any body runs. -/
theorem actAbove_zero : actAbove B 0 = act B := by
  funext m
  rw [actAbove]
  split
  · rename_i hlen
    obtain ⟨s, w⟩ := m
    have hr : s.running = [] := List.length_eq_zero_iff.mp (Nat.le_zero.mp hlen)
    simp [act, hr]
  · rfl

/-- A move of a step is one of the machine. -/
theorem actAbove_next (h : actAbove B n m = .next m') :
    n < m.sched.running.length ∧ tick B m = .next m' ∧ m.sched.Step (m.event B) m'.sched := by
  rw [actAbove] at h
  split at h
  · cases h
  · rename_i hlen
    exact ⟨Nat.lt_of_not_le hlen, ticks_act.next h, act_next h⟩

/-- The step of a task that is younger than the main one lets no failure out: it comes to its end
    and leaves the bodies around it as they are, or a body gives up. -/
theorem iterate_actAbove {out : Except Halt Unit}
    (h : iterate (actAbove B base.length) fuel m = some (out, m')) (hover : m.sched.Over k id base)
    (hk : k ≤ m.sched.tasks.size) (hid : k ≤ id.index)
    (hmain : ∀ main, m.sched.main = some main → main.index < k) :
    out = .ok () ∧ m'.sched.running = base ∧ m.sched.tasks.size ≤ m'.sched.tasks.size ∨
      ∃ cause, out = .error (.aborted cause) := by
  induction fuel, m, h using iterate_induction with
  | next fuel m m₁ hmove _ ih =>
    obtain ⟨hlen, -, hstep⟩ := actAbove_next hmove
    have hsize := hstep.size_le
    have hmain₁ := hstep.main_eq (event_ne_started _)
    obtain ⟨hout, hr, hsize'⟩ | hout :=
      ih (hover.step hk hlen hstep) (hk.trans hsize) (hmain₁ ▸ hmain)
    · exact .inl ⟨hout, hr, hsize.trans hsize'⟩
    · exact .inr hout
  | idle fuel m hmove hout =>
    rw [actAbove] at hmove
    split at hmove
    · rename_i hlen
      obtain rfl := Progress.idle.inj hmove
      exact .inl ⟨hout, hover.running_eq hlen, Nat.le_refl _⟩
    · rename_i hlen
      rw [(act_idle hmove).2] at hlen
      exact absurd (Nat.zero_le _) hlen
  | halted fuel m why hmove hout =>
    rw [actAbove] at hmove
    split at hmove
    · cases hmove
    · rename_i hlen
      cases why with
      | aborted cause => exact .inr ⟨cause, hout⟩
      | fault f =>
        -- only the main task lets a fault out, and it is older
        obtain ⟨-, q, rest, hr, hq, -⟩ := act_fault hmove
        have hlt := hmain q.id hq
        obtain rfl | hle := hover.innermost hr (Nat.lt_of_not_le hlen)
        · omega
        · omega

/-- So does the step of a task that has just been started. -/
theorem iterate_start {out : Except Halt Unit} {name : String} {child : β}
    (h : iterate (actAbove B n) fuel (start B m name child false) = some (out, m'))
    (hn : m.sched.running.length = n)
    (hmain : ∀ main, m.sched.main = some main → main.index < m.sched.tasks.size) :
    out = .ok () ∧ m'.sched.running = m.sched.running ∧
        m.sched.nextId.index < m'.sched.tasks.size ∨
      ∃ cause, out = .error (.aborted cause) := by
  subst hn
  have hsize : (start B m name child false).sched.tasks.size = m.sched.tasks.size + 1 := by
    simp [start]
  have hover : (start B m name child false).sched.Over m.sched.tasks.size m.sched.nextId
      m.sched.running := .inr ⟨[], child, rfl, by simp⟩
  obtain ⟨hout, hr, hle⟩ | hout := iterate_actAbove h hover (by omega) (Nat.le_refl _) hmain
  · exact .inl ⟨hout, hr, by rw [hsize] at hle; exact hle⟩
  · exact .inr hout

/-- A body that starts a task goes on, with the identity of the task, below the new body. -/
theorem tick_spawn {body child : β} {name : String} {parent : TaskId → β}
    (hr : m.sched.running = ⟨id, body⟩ :: outer)
    (hact : (B.act m.world m.sched.tasks body).1 = .spawn name child parent) :
    tick B m = .next (start B
      (({ m with world := (B.act m.world m.sched.tasks body).2 } : Machine β ν ω).withRunning
        (⟨id, parent m.sched.nextId⟩ :: outer)) name child false) := by
  rw [tick_of_running (by simp [hr])]
  obtain ⟨s, w⟩ := m
  simp only at hr hact
  simp only [act, hr, hact]
  rfl

theorem isSome_spawn {name : String} {child : β}
    (h : (iterate (act B) fuel (start B m name child false)).isSome) :
    (spawn B fuel name child m).isSome := by
  obtain ⟨⟨ended, m'⟩, hi⟩ := Option.isSome_iff_exists.mp h
  cases ended <;> simp [spawn, hi]

/-! ## Failures -/

section Failures

variable {failure : Delivery ν} {t : Task β ν}

omit [Inhabited ν] in
theorem isRejected_letOut (h : m.letOut B = some (id, failure)) (label : String) :
    (failure.settles label).isRejected = true := by
  unfold letOut at h
  split at h
  · cases h
  · split at h
    · cases h
      rfl
    · cases h
      rfl
    · cases h

/-- A failure of a task that is not the main one settles the task. -/
theorem tick_failure (hr : m.sched.running = p :: outer)
    (hfail : m.letOut B = some (p.id, failure)) (hmain : m.sched.main ≠ some p.id) :
    ∃ m', tick B m = .next m' ∧
      m'.sched = ({ m.sched with running := outer } : Scheduler β ν).settle p.id
        (failure.settles (m.sched.labelOf p.id)) ∧
      m'.world = (failure.notices (m.sched.labelOf p.id)).foldl (fun w n => B.note n w)
        (B.act m.world m.sched.tasks p.body).2 := by
  rw [tick_of_running (by simp [hr])]
  obtain ⟨s, w⟩ := m
  obtain ⟨id, body⟩ := p
  simp only [letOut, act] at hr hfail ⊢
  simp only [hr] at hfail ⊢
  cases ha : (B.act w s.tasks body).1 with
  | throw v pos =>
    simp only [ha, Option.some.injEq, Prod.mk.injEq, true_and] at hfail
    subst hfail
    exact ⟨_, rfl, rfl, rfl⟩
  | fail f =>
    simp only [ha, Option.some.injEq, Prod.mk.injEq, true_and] at hfail
    subst hfail
    simp only [perform, if_neg hmain]
    exact ⟨_, rfl, rfl, rfl⟩
  | _ => simp [ha] at hfail

/-- Such a failure changes nothing else. -/
theorem exists_rejects (hr : m.sched.running = p :: outer)
    (hfail : m.letOut B = some (p.id, failure)) (hmain : m.sched.main ≠ some p.id)
    (ht : m.sched.tasks[p.id.index]? = some t) (hpending : t.state = .pending) :
    ∃ m', tick B m = .next m' ∧ Rejects B m m' p outer failure t := by
  have hrejected := isRejected_letOut hfail (m.sched.labelOf p.id)
  obtain ⟨m', hmove, hsched, hworld⟩ := tick_failure hr hfail hmain
  simp only [Scheduler.settle, ht] at hsched
  exact ⟨m', hmove, {
    before := ht
    pending := hpending
    rejected := hrejected
    task := by
      rw [hsched, Array.getElem?_modify, if_pos rfl, ht]
      rfl
    others := fun i hi => by simp [hsched, Array.getElem?_modify, hi.symm]
    ready := by rw [hsched]
    listed := by
      rw [hsched, hrejected, Bool.true_and]
      split <;> simp
    unhandled := by rw [hsched]
    steps := by rw [hsched]
    maxSteps := by rw [hsched]
    main := by rw [hsched]
    running := by rw [hsched]
    world := hworld }⟩

/-- The moves of a step leave it where it is, and go on with a course. -/
theorem MovesAbove.course {ds : List (Deed ν)} {m₀ : Machine β ν ω}
    (h : MovesAbove B base.length m m') (hcourse : Course B m₀ ds m)
    (hover : m.sched.Over 0 id base) :
    m'.sched.Over 0 id base ∧ ∃ ds', Course B m₀ ds' m' := by
  induction h generalizing ds with
  | refl => exact ⟨hover, ds, hcourse⟩
  | step hmove _ ih =>
    obtain ⟨hlen, hnext, hstep⟩ := actAbove_next hmove
    exact ih (hcourse.next hnext) (hover.step (Nat.zero_le _) hlen hstep)

/-- In a course of a fresh machine, a body runs for a pending task. -/
theorem Course.pending_of_running {ds : List (Deed ν)} {maxSteps : ℕ} {world : ω}
    (h : Course B ⟨.fresh maxSteps, world⟩ ds m) (hr : m.sched.running = p :: outer) :
    ∃ t, m.sched.tasks[p.id.index]? = some t ∧ t.state = .pending := by
  obtain ⟨⟨failed, hacc⟩, -⟩ := h.lasting_fresh Scheduler.lasting_delivers
    ⟨⟨[], Scheduler.accounted_fresh maxSteps⟩, Scheduler.delivers_fresh maxSteps⟩
  obtain ⟨hpend, -⟩ := hacc.of_running (p := p) (by rw [hr]; simp)
  obtain ⟨t, ht⟩ : ∃ t, m.sched.tasks[p.id.index]? = some t :=
    ⟨_, Array.getElem?_eq_getElem (Scheduler.lt_of_isPending hpend)⟩
  rw [Scheduler.isPending_eq ht] at hpend
  refine ⟨t, ht, ?_⟩
  cases hs : t.state with
  | pending => rfl
  | _ => simp [hs, TaskState.isSettled] at hpend

end Failures

/-- At every moment of every course of a fresh machine, whatever its bodies do. A host that starts a
    task gets the task, if the step of the task comes to an end. So does a body: it goes on with the
    identity of the task, inside the same bodies. And a failure at the end of a step, first or
    later, of a task that is not the main one, only rejects the task; a drain goes on with the next
    body of the queue. Bodies that give up are the only exception. -/
theorem Course.failures_isolated {ds : List (Deed ν)} {maxSteps : ℕ} {world : ω}
    (h : Course B ⟨.fresh maxSteps, world⟩ ds m) :
    (∀ name child, m.sched.running = [] →
      ((start B m name child false).StepEnds B →
        ∃ fuel, (Machine.spawn B fuel name child m).isSome) ∧
      ∀ fuel out m', Machine.spawn B fuel name child m = some (out, m') →
        out = .ok m.sched.nextId ∧ m'.sched.running = [] ∧
            m.sched.nextId.index < m'.sched.tasks.size ∨
          ∃ cause, out = .error (.aborted cause)) ∧
    (∀ id body outer name child parent, m.sched.running = ⟨id, body⟩ :: outer →
      (B.act m.world m.sched.tasks body).1 = .spawn name child parent →
      ∃ m₁, tick B m = .next m₁ ∧
        m₁.sched.running =
          ⟨m.sched.nextId, child⟩ :: ⟨id, parent m.sched.nextId⟩ :: outer ∧
        ∀ fuel out m', iterate (actAbove B (outer.length + 1)) fuel m₁ = some (out, m') →
          out = .ok () ∧ m'.sched.running = ⟨id, parent m.sched.nextId⟩ :: outer ∧
              m.sched.nextId.index < m'.sched.tasks.size ∨
            ∃ cause, out = .error (.aborted cause)) ∧
    ∀ p base, m.sched.running = p :: base → ∀ m₁, MovesAbove B base.length m m₁ →
      ∀ q outer failure, m₁.sched.running = q :: outer → outer.length = base.length →
        m₁.letOut B = some (q.id, failure) → m₁.sched.main ≠ some q.id →
        q.id = p.id ∧ ∃ m₂ t, tick B m₁ = .next m₂ ∧ Rejects B m₁ m₂ q base failure t ∧
          (∀ fuel, drain B (fuel + 1) m₁ = drain B fuel m₂) ∧
          (base = [] → ∀ r rest, m₂.sched.ready = r :: rest → m₂.sched.steps < m₂.sched.maxSteps →
            tick B m₂ = .next (m₂.turn B r rest)) := by
  have hmain : ∀ main, m.sched.main = some main → main.index < m.sched.tasks.size :=
    (h.lasting (I := fun _ _ => True) ⟨fun _ _ => trivial, fun _ => trivial⟩ trivial
      (Scheduler.mainOutermost_fresh maxSteps)).2.exists_main
  refine ⟨fun name child hr => ⟨?_, fun fuel out m' hspawn => ?_⟩, ?_, ?_⟩
  · rintro ⟨fuel, hfuel⟩
    exact ⟨fuel, isSome_spawn hfuel⟩
  · obtain ⟨ended, hi, rfl⟩ := exists_ended_of_spawn hspawn
    rw [← actAbove_zero] at hi
    obtain ⟨rfl, hr', hsize⟩ | ⟨cause, rfl⟩ := iterate_start hi (by rw [hr, List.length_nil]) hmain
    · exact .inl ⟨rfl, hr'.trans hr, hsize⟩
    · exact .inr ⟨cause, rfl⟩
  · intro id body outer name child parent hr hact
    exact ⟨_, tick_spawn hr hact, rfl, fun fuel out m' hi => iterate_start hi rfl hmain⟩
  · intro p base hr m₁ hmoves q outer failure hr₁ hlen hfail hnot
    have hbegin : m.sched.Over 0 p.id base := .inr ⟨[], p.body, hr, by simp⟩
    obtain ⟨hover, ds₁, hcourse₁⟩ := hmoves.course h hbegin
    obtain ⟨hid, rfl⟩ := hover.last hr₁ hlen
    obtain ⟨t, ht, hpending⟩ := hcourse₁.pending_of_running hr₁
    obtain ⟨m₂, hmove, hrejects⟩ := exists_rejects hr₁ hfail hnot ht hpending
    refine ⟨hid, m₂, t, hmove, hrejects, fun fuel => ?_, fun hbase r rest hq hleft => ?_⟩
    · rw [drain, iterate, hmove, drain]
    · rw [tick_of_ready (hrejects.running.trans hbase) hq, if_neg (Nat.not_le_of_lt hleft)]

/-- A machine whose main body is about to start a task. -/
def losing : Machine (List Move) Unit Unit :=
  startMain throwing "main" [.start "lost" [], .pause] ⟨.fresh 5, ()⟩

/-- The same machine when it has started the task, whose body throws. -/
def lost : Machine (List Move) Unit Unit :=
  start throwing (losing.withRunning [⟨⟨0⟩, [.pause]⟩]) "lost" [] false

theorem failures_isolated_lost :
    (∃ m₁, tick throwing losing = .next m₁ ∧
      m₁.sched.running = [⟨⟨1⟩, []⟩, ⟨⟨0⟩, [.pause]⟩] ∧
      ∀ fuel out m', iterate (actAbove throwing 1) fuel m₁ = some (out, m') →
        out = .ok () ∧ m'.sched.running = [⟨⟨0⟩, [.pause]⟩] ∧ 1 < m'.sched.tasks.size ∨
          ∃ cause, out = .error (.aborted cause)) ∧
    ∃ m₂ t, tick throwing lost = .next m₂ ∧
      Rejects throwing lost m₂ ⟨⟨1⟩, []⟩ [⟨⟨0⟩, [.pause]⟩] (.thrown () none) t := by
  have hlosing : Course throwing ⟨.fresh 5, ()⟩ [⟨.started ⟨0⟩ true, none⟩] losing :=
    .run "main" _ .refl rfl
  have hlost : Course throwing ⟨.fresh 5, ()⟩ _ lost := hlosing.next rfl
  obtain ⟨-, hspawn, -⟩ := hlosing.failures_isolated
  obtain ⟨-, -, hfail⟩ := hlost.failures_isolated
  obtain ⟨-, m₂, t, hmove, hrejects, -⟩ :=
    hfail _ _ rfl lost (.refl _) _ _ (.thrown () none) rfl rfl rfl (by decide)
  exact ⟨hspawn ⟨0⟩ _ [] "lost" [] (fun _ => [.pause]) rfl rfl, m₂, t, hmove, hrejects⟩

end Machine

end CoScript
