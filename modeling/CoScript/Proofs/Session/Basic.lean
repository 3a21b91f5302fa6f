import CoScript.Session

/-!
# What the parts of an operation do

A run and a call are made of the same parts: the main task runs with all others, what is listed as
unhandled is reported, and the main task has a result.

Results:
* `InSession.bind_eq_some`: a computation in two parts ends in the first or in the second.
* `Session.runMain_eq_some`: running tasks changes the machine and reports nothing.
* `Session.reportAll_eq_some`: a report goes on up to the first rejection that cannot be shown.
* `Session.resultOf_eq_some`, `Session.lookup_eq_some`: the result of a task and the value of a name
  change nothing.
* `Session.Quiet`: what an operation keeps of the machine, one lemma for each of its parts.
-/

namespace CoScript

namespace InSession

variable {α β : Type} {x : InSession α} {f : α → InSession β} {s s' : Session}

/-- The first part of a computation, and then the second one unless a fault ends the first. -/
theorem run_bind : (x >>= f).run s = (x.run s).bind fun r => match r with
    | (.ok a, s₁) => (f a).run s₁
    | (.error e, s₁) => some (.error e, s₁) := by
  change ((x.run s).bind fun r => (ExceptT.bindCont f r.1) r.2) = _
  congr
  funext r
  obtain ⟨r, s₁⟩ := r
  cases r <;> rfl

/-- A computation that starts by looking at the session. -/
theorem run_get_bind {f : Session → InSession α} :
    (MonadState.get >>= f).run s = (f s).run s :=
  rfl

/-- A computation in two parts ends in the second part, or with a fault in the first. -/
theorem bind_eq_some {out : Except Fault β} (h : (x >>= f).run s = some (out, s')) :
    (∃ a s₁, x.run s = some (.ok a, s₁) ∧ (f a).run s₁ = some (out, s')) ∨
      ∃ e, x.run s = some (.error e, s') ∧ out = .error e := by
  rw [run_bind] at h
  obtain ⟨⟨r, s₁⟩, hx, hrest⟩ := Option.bind_eq_some_iff.mp h
  cases r with
  | ok a => exact .inl ⟨a, s₁, hx, hrest⟩
  | error e =>
    obtain ⟨rfl, rfl⟩ := Prod.mk.inj (Option.some.inj hrest)
    exact .inr ⟨e, hx, rfl⟩

end InSession

namespace Session

variable {s s' : Session} {fuel : Nat} {name : String} {id : TaskId}

/-- Running tasks changes the machine and reports nothing. -/
theorem runMain_eq_some {control : Control} {out : Except Fault TaskId}
    (h : (runMain fuel name control).run s = some (out, s')) :
    ∃ ended m, Machine.run script fuel name ⟨control, [], 0⟩ s.machine = some (ended, m) ∧
      out = ended.mapError Halt.toFault ∧ s' = ⟨m, s.reported⟩ := by
  unfold runMain at h
  rw [InSession.run_get_bind] at h
  cases hm : Machine.run script fuel name ⟨control, [], 0⟩ s.machine with
  | none =>
    rw [hm] at h
    cases h
  | some r =>
    obtain ⟨ended, m⟩ := r
    rw [hm] at h
    refine ⟨ended, m, rfl, ?_⟩
    cases ended <;> cases h <;> exact ⟨rfl, rfl⟩

/-! ## Reports -/

/-- The tasks that the host was told of, in order. -/
def reportedTasks (s : Session) : List TaskId :=
  s.reported.toList.map (·.task)

/-- Whether the rejection of a task can be shown. -/
def shows (s : Session) (id : TaskId) : Bool :=
  (s.rejectionFault? id).isSome

/-- A report tells the host of the task, if its rejection can be shown. -/
theorem reportRejection_eq_some {out : Except Fault Fault}
    (h : (reportRejection id).run s = some (out, s')) :
    s'.sched = s.sched ∧ s'.world.heap = s.world.heap ∧ s'.shows = s.shows ∧
      out.isOk = s.shows id ∧
      s'.reportedTasks = s.reportedTasks ++ if s.shows id then [id] else [] := by
  unfold reportRejection at h
  rw [InSession.run_get_bind] at h
  unfold shows
  cases hf : s.rejectionFault? id with
  | none =>
    rw [hf] at h
    cases h
    simp [Except.isOk, Except.toBool]
  | some fault =>
    rw [hf] at h
    cases h
    refine ⟨rfl, rfl, rfl, rfl, ?_⟩
    simp [reportedTasks, withReport]

/-- Reports go on up to the first rejection that cannot be shown. -/
theorem reportEach_eq_some {ids : List TaskId} {out : Except Fault (List Fault)}
    (h : (ids.mapM reportRejection).run s = some (out, s')) :
    s'.sched = s.sched ∧ s'.world.heap = s.world.heap ∧ s'.shows = s.shows ∧
      s'.reportedTasks = s.reportedTasks ++ ids.takeWhile s.shows := by
  induction ids generalizing s out with
  | nil =>
    cases h
    simp
  | cons id ids ih =>
    rw [List.mapM_cons] at h
    obtain ⟨f, s₁, hfirst, h⟩ | ⟨e, hfirst, rfl⟩ := InSession.bind_eq_some h
    · obtain ⟨hsched, hheap, hshows, hok, hreported⟩ := reportRejection_eq_some hfirst
      have hid : s.shows id = true := hok.symm
      obtain ⟨out', hrest⟩ : ∃ out', (ids.mapM reportRejection).run s₁ = some (out', s') := by
        obtain ⟨fs, s₂, hrest, hpure⟩ | ⟨e, hrest, -⟩ := InSession.bind_eq_some h
        · cases hpure
          exact ⟨_, hrest⟩
        · exact ⟨_, hrest⟩
      obtain ⟨hsched', hheap', hshows', hreported'⟩ := ih hrest
      refine ⟨hsched'.trans hsched, hheap'.trans hheap, hshows'.trans hshows, ?_⟩
      rw [hreported', hreported, hshows, List.takeWhile_cons, hid]
      simp
    · obtain ⟨hsched, hheap, hshows, hok, hreported⟩ := reportRejection_eq_some hfirst
      have hid : s.shows id = false := hok.symm
      refine ⟨hsched, hheap, hshows, ?_⟩
      rw [hreported, List.takeWhile_cons, hid]
      simp

/-- What is listed as unhandled is reported, up to the first rejection that cannot be shown. -/
theorem reportAll_eq_some {out : Except Fault (List Fault)}
    (h : reportAll.run s = some (out, s')) :
    s'.sched = s.sched ∧ s'.world.heap = s.world.heap ∧ s'.shows = s.shows ∧
      s'.reportedTasks = s.reportedTasks ++ s.sched.unhandled.takeWhile s.shows :=
  @reportEach_eq_some s s' s.sched.unhandled _ h

/-- The result of a task changes nothing. -/
theorem resultOf_eq_some {out : Except Fault Value} (h : (resultOf id).run s = some (out, s')) :
    s' = s := by
  unfold resultOf at h
  rw [InSession.run_get_bind] at h
  cases hstate : s.sched.stateOf id with
  | thrown v pos =>
    simp only [hstate] at h
    cases hshown : s.render? v <;> simp only [hshown] at h <;> cases h <;> rfl
  | _ =>
    simp only [hstate] at h
    cases h
    rfl

/-- The result of a task that has one is the value that it ended with. -/
theorem resultOf_eq_ok {v : Value} (h : (resultOf id).run s = some (.ok v, s')) :
    s.sched.stateOf id = .fulfilled v := by
  unfold resultOf at h
  rw [InSession.run_get_bind] at h
  cases hstate : s.sched.stateOf id with
  | fulfilled v =>
    simp only [hstate] at h
    cases h
    rfl
  | thrown v pos =>
    simp only [hstate] at h
    cases hshown : s.render? v <;> simp only [hshown] at h <;> cases h
  | _ =>
    simp only [hstate] at h
    cases h

/-- The value of a name, if it stands for one; looking it up changes nothing. -/
theorem lookup_eq_some {out : Except Fault Value}
    (h : (Session.lookup name).run s = some (out, s')) :
    s' = s ∧ ((∃ v, out = .ok v ∧ s.world.heap.scopes.lookup s.world.globals name = .ok v) ∨
      ∃ cause, out = .error (.nowhere cause) ∧
        s.world.heap.scopes.lookup s.world.globals name = .error cause) := by
  unfold Session.lookup at h
  rw [InSession.run_get_bind] at h
  cases hl : s.world.heap.scopes.lookup s.world.globals name with
  | ok v =>
    simp only [hl] at h
    cases h
    exact ⟨rfl, .inl ⟨v, rfl, rfl⟩⟩
  | error cause =>
    simp only [hl] at h
    cases h
    exact ⟨rfl, .inr ⟨cause, rfl, rfl⟩⟩

/-! ## What operations keep -/

section Quiet

variable {α β : Type} {J : Machine Thread Value World → Prop} {C : Control → Prop}

/-- A computation that keeps an invariant of the machine of a session. -/
def Quiet (J : Machine Thread Value World → Prop) {α : Type} (x : InSession α) : Prop :=
  ∀ s out s', x.run s = some (out, s') → J s.machine → J s'.machine

namespace Quiet

variable {x : InSession α} {f : α → InSession β}

theorem pure {a : α} : Quiet J (Pure.pure a : InSession α) := by
  rintro s _ _ ⟨⟩ h
  exact h

theorem throw {fault : Fault} : Quiet J (MonadExcept.throw fault : InSession α) := by
  rintro s _ _ ⟨⟩ h
  exact h

theorem bind (hx : Quiet J x) (hf : ∀ a, Quiet J (f a)) : Quiet J (x >>= f) := by
  intro s out s' hrun hs
  obtain ⟨a, s₁, hfirst, hrest⟩ | ⟨e, hfirst, -⟩ := InSession.bind_eq_some hrun
  · exact hf a s₁ out s' hrest (hx s _ s₁ hfirst hs)
  · exact hx s _ s' hfirst hs

theorem get : Quiet J (MonadState.get : InSession Session) := by
  rintro s _ _ ⟨⟩ h
  exact h

theorem modify {g : Session → Session} (hg : ∀ s, J s.machine → J (g s).machine) :
    Quiet J (modify g : InSession Unit) := by
  rintro s _ _ ⟨⟩ h
  exact hg s h

theorem mapM {items : List α} {f : α → InSession β} (hf : ∀ a, Quiet J (f a)) :
    Quiet J (items.mapM f) := by
  induction items with
  | nil => exact pure
  | cons a items ih =>
    rw [List.mapM_cons]
    exact bind (hf a) fun _ => bind ih fun _ => pure

end Quiet

/-- An invariant of the machine that the parts of an operation keep: main tasks that start in a way
    of `C`, notes of what was reported, and that rejections are forgotten. -/
structure KeptWith (J : Machine Thread Value World → Prop) (C : Control → Prop) : Prop where
  run : ∀ {fuel name control m m' out}, C control → J m →
    Machine.run script fuel name ⟨control, [], 0⟩ m = some (out, m') → J m'
  record : ∀ {m : Machine Thread Value World} (level source message), J m →
    J { m with world := m.world.record level source message }
  forget : ∀ {m : Machine Thread Value World}, J m →
    J { m with sched := { m.sched with unhandled := [] } }

namespace KeptWith

variable {args : List Value}

theorem runMain (hJ : KeptWith J C) {control : Control} (hc : C control) :
    Quiet J (runMain fuel name control) := by
  intro s out s' hrun hs
  obtain ⟨ended, m, hm, -, rfl⟩ := runMain_eq_some hrun
  exact hJ.run hc hs hm

theorem reportAll (hJ : KeptWith J C) : Quiet J reportAll := by
  refine .bind .get fun s => .mapM fun id => .bind .get fun s => ?_
  split
  · exact .bind (.modify fun s hs => hJ.record _ _ _ hs) fun _ => .pure
  · exact .throw

theorem resultOf : Quiet J (resultOf id) := by
  intro s out s' hrun hs
  rwa [resultOf_eq_some hrun]

theorem run_program (hJ : KeptWith J C) {program : Program}
    (hp : C (.program (importsOf program.statements) program.statements)) :
    Quiet J (Session.run fuel program) :=
  .bind (hJ.runMain hp) fun _ => .bind hJ.reportAll fun _ => .bind resultOf fun _ =>
    .bind .get fun _ => .pure

theorem call (hJ : KeptWith J C) (hc : ∀ callee, C (.invoke callee args outside)) :
    Quiet J (Session.call fuel name args) := by
  refine .bind (.bind .get fun s => ?_) fun callee => .bind (.modify fun s hs => hJ.forget hs)
    fun _ => .bind (hJ.runMain (hc callee)) fun _ => .bind hJ.reportAll fun _ =>
    .bind resultOf fun v => .bind .get fun _ => .pure
  split
  · exact .pure
  · exact .throw

/-- The text of a program runs if it can be read. -/
theorem runText (hJ : KeptWith J C) {source : String}
    (hp : ∀ program, parse source = .ok program →
      C (.program (importsOf program.statements) program.statements))
    {out : Except Failure RunResult} (h : runText fuel source s = some (out, s'))
    (hs : J s.machine) : J s'.machine := by
  unfold Session.runText at h
  split at h
  · obtain ⟨-, rfl⟩ := Prod.mk.inj (Option.some.inj h)
    exact hs
  · rename_i program hparse
    obtain ⟨⟨out', s₁⟩, hrun, heq⟩ := Option.map_eq_some_iff.mp h
    obtain ⟨-, rfl⟩ := Prod.mk.inj heq
    exact hJ.run_program (hp program hparse) s out' s₁ hrun hs

end KeptWith

end Quiet

end Session

end CoScript
