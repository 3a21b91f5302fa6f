import CoScript.Proofs.Session.Basic
import CoScript.Proofs.Task.Rejections
import Mathlib.Data.List.TakeWhile

/-!
# Reports of sessions

At its end an operation reports what the scheduler has listed as unhandled. A call forgets first
what is listed; a run does not, and so it reports once more what operations before it have reported.
An operation that is cut short, or whose main task waits for ever, reports nothing.

Results:
* `Session.run_reports`, `Session.call_reports`: what an operation reports.
* `Session.run_reports_again`: a run repeats the reports that no call has cleared.
* `Session.Orderly.reported_once`: if each run finds nothing listed and no main task waits for ever,
  each detached task that is rejected, and that nothing has waited for, is reported once.
-/

namespace CoScript

namespace Machine

variable {β ν ω : Type} [Inhabited ν] {B : Behaviour β ν ω} {m m' : Machine β ν ω} {fuel : ℕ}
  {name : String} {body : β}

/-! ## Runs that fail -/

variable (B) in
/-- Moves never give a main task to the host. -/
theorem event_ne_returned (m : Machine β ν ω) (id : TaskId) : m.event B ≠ .returned id := by
  unfold event
  repeat' split
  all_goals simp

theorem returned_notMem_trace {move : Machine β ν ω → Progress (Machine β ν ω)} {id : TaskId} :
    .returned id ∉ trace B move fuel m := by
  induction fuel generalizing m with
  | zero => simp [trace]
  | succ fuel ih =>
    unfold trace
    split
    · simp [ih, (event_ne_returned B m id).symm]
    · simp
    · simp [(event_ne_returned B m id).symm]

/-- The events of a run that fails do not end with its main task given to the host. -/
theorem runEvents_error {why : Halt} {es es' : List (Event ν)} {id : TaskId}
    (h : run B fuel name body m = some (.error why, m')) :
    es ++ runEvents B fuel name body m ≠ es' ++ [.returned id] := by
  intro heq
  have hlast : (runEvents B fuel name body m).getLast? = some (.returned id) := by
    have := congrArg List.getLast? heq
    simpa [runEvents, List.getLast?_append] using this
  have hmem := List.mem_of_getLast? hlast
  simp only [runEvents, h, drainEvents, List.append_nil, List.mem_cons, reduceCtorEq, false_or,
    List.mem_append, returned_notMem_trace] at hmem
  split at hmem <;> simp at hmem

end Machine

namespace Session

variable {s s' : Session} {fuel : ℕ} {name : String}

/-! ## What an operation reports -/

/-- What an operation reports once its tasks have run: all that is listed then, up to the first
    rejection that cannot be shown, and nothing if the tasks were cut short or the main task waits
    for ever. -/
structure Reporting (s : Session) (ended : Except Halt TaskId) (s' : Session) : Prop where
  ok : ∀ id, ended = .ok id →
    s'.reportedTasks = s.reportedTasks ++ s'.sched.unhandled.takeWhile s'.shows
  error : ∀ why, ended = .error why → s'.reportedTasks = s.reportedTasks

/-- The parts that a run and a call share: the tasks run, what is listed is reported, and the main
    task has a result. -/
theorem operation_reports {α : Type} {control : Control} {give : List Fault → Value → InSession α}
    {out : Except Fault α}
    (hgive : ∀ faults v s₁ out s₂, (give faults v).run s₁ = some (out, s₂) → s₂ = s₁)
    (h : (runMain fuel name control >>= fun id => reportAll >>= fun faults =>
      resultOf id >>= give faults).run s = some (out, s')) :
    ∃ ended m, Machine.run script fuel name ⟨control, [], 0⟩ s.machine = some (ended, m) ∧
      s'.sched = m.sched ∧ s'.world.heap = m.world.heap ∧ Reporting s ended s' ∧
      ∀ why, ended = .error why → out = .error why.toFault := by
  obtain ⟨id, s₁, hmain, h⟩ | ⟨e, hmain, rfl⟩ := InSession.bind_eq_some h
  · obtain ⟨ended, m, hm, hok, rfl⟩ := runMain_eq_some hmain
    cases ended with
    | error why => cases hok
    | ok id' =>
      -- after the report nothing changes any more
      obtain ⟨out₂, hall⟩ : ∃ out₂, reportAll.run (⟨m, s.reported⟩ : Session) =
        some (out₂, s') := by
        obtain ⟨faults, s₂, hall, h⟩ | ⟨e, hall, -⟩ := InSession.bind_eq_some h
        · obtain ⟨v, s₃, hresult, h⟩ | ⟨e, hresult, -⟩ := InSession.bind_eq_some h
          · rw [hgive _ _ _ _ _ h, resultOf_eq_some hresult]
            exact ⟨_, hall⟩
          · rw [resultOf_eq_some hresult]
            exact ⟨_, hall⟩
        · exact ⟨_, hall⟩
      obtain ⟨hsched, hheap, hshows, hreported⟩ := reportAll_eq_some hall
      refine ⟨.ok id', m, hm, hsched, hheap, ⟨fun _ _ => ?_, by simp⟩, by simp⟩
      rw [hsched, hshows]
      exact hreported
  · obtain ⟨ended, m, hm, hok, rfl⟩ := runMain_eq_some hmain
    cases ended with
    | ok id => cases hok
    | error why =>
      refine ⟨.error why, m, hm, rfl, rfl, ⟨by simp, fun _ _ => rfl⟩, fun why' heq => ?_⟩
      obtain rfl := Except.error.inj heq
      rw [Except.error.inj hok]

/-- What a run reports. -/
theorem run_reports {program : Program} {out : Except Fault RunResult}
    (h : (run fuel program).run s = some (out, s')) :
    ∃ ended m, Machine.run script fuel "main"
        ⟨.program (importsOf program.statements) program.statements, [], 0⟩ s.machine =
          some (ended, m) ∧
      s'.sched = m.sched ∧ s'.world.heap = m.world.heap ∧ Reporting s ended s' ∧
      ∀ why, ended = .error why → out = .error why.toFault := by
  unfold run at h
  exact operation_reports (by rintro _ _ _ _ _ ⟨⟩; rfl) h

/-- The call of a name that stands for nothing changes nothing. Any other call forgets what is
    listed and then reports what is listed at its end. -/
theorem call_reports {args : List Value} {out : Except Fault Value}
    (h : (call fuel name args).run s = some (out, s')) :
    (∃ cause, s.world.heap.scopes.lookup s.world.globals name = .error cause ∧ s' = s ∧
      out = .error (.nowhere cause)) ∨
    ∃ callee, s.world.heap.scopes.lookup s.world.globals name = .ok callee ∧
      ∃ ended m, Machine.run script fuel name ⟨.invoke callee args outside, [], 0⟩
          s.clearUnhandled.machine = some (ended, m) ∧
        s'.sched = m.sched ∧ s'.world.heap = m.world.heap ∧ Reporting s ended s' ∧
        ∀ why, ended = .error why → out = .error why.toFault := by
  unfold call at h
  obtain ⟨callee, s₁, hname, hcall⟩ | ⟨e, hname, rfl⟩ := InSession.bind_eq_some h
  · obtain ⟨rfl, ⟨v, ⟨⟩, hl⟩ | ⟨_, ⟨⟩, -⟩⟩ := lookup_eq_some hname
    refine .inr ⟨callee, hl, ?_⟩
    obtain ⟨_, s₂, ⟨⟩, hrest⟩ | ⟨e, ⟨⟩, -⟩ := InSession.bind_eq_some hcall
    obtain ⟨ended, m, hm, hsched, hheap, hreport, hout⟩ :=
      operation_reports (by rintro _ _ _ _ _ ⟨⟩; rfl) hrest
    exact ⟨ended, m, hm, hsched, hheap, ⟨hreport.ok, hreport.error⟩, hout⟩
  · obtain ⟨rfl, ⟨v, ⟨⟩, -⟩ | ⟨cause, ⟨⟩, hl⟩⟩ := lookup_eq_some hname
    exact .inl ⟨cause, hl, rfl, rfl⟩

/-- A run that ends normally reports once more what operations before it have reported, unless a
    call has cleared it. -/
theorem run_reports_again {program : Program} {result : RunResult} {id : TaskId}
    (h : (run fuel program).run s = some (.ok result, s'))
    (hshow : ∀ id ∈ s'.sched.unhandled, s'.shows id = true) (hid : id ∈ s.sched.unhandled) :
    s.reportedTasks.count id < s'.reportedTasks.count id := by
  obtain ⟨ended, m, hm, hsched, -, hreport, hout⟩ := run_reports h
  cases ended with
  | error why => simp at hout
  | ok main =>
    obtain ⟨m₁, hi, -, -, hm₁, -⟩ := Machine.drain_eq_ok (Machine.run_eq_ok hm)
    have hkept : m₁.sched.unhandled = s.sched.unhandled := by
      rw [Machine.unreporting_tick.iterate Machine.faithful_tick hi]
      rfl
    have hmem : id ∈ s'.sched.unhandled := by
      rw [hsched, hm₁]
      exact List.mem_append_left _ (hkept ▸ hid)
    have hall : s'.sched.unhandled.takeWhile s'.shows = s'.sched.unhandled :=
      List.takeWhile_eq_self_iff.mpr hshow
    rw [hreport.ok main rfl, hall, List.count_append]
    exact Nat.lt_add_of_pos_right (List.count_pos_iff.mpr hmem)

/-! ## Sessions whose reports are in order -/

/-- Sessions in which a run follows only what leaves nothing listed, no main task waits for ever,
    and each rejection that is listed can be shown; with the events of their tasks and what calls
    have cleared. -/
inductive Orderly (config : Config) (host : Host) :
    List (Event Value) → List TaskId → Session → Prop
  | new : Orderly config host [] [] (new config host)
  | run {es : List (Event Value)} {cleared : List TaskId} {s s' : Session} {fuel : ℕ}
      {program : Program} {out : Except Fault RunResult} (h : Orderly config host es cleared s)
      (hlist : s.sched.unhandled = []) (hr : (run fuel program).run s = some (out, s'))
      (hstall : ∀ f, out = .error f → f.cause ≠ .stalled)
      (hshow : ∀ id ∈ s'.sched.unhandled, s'.shows id = true) :
      Orderly config host (es ++ Machine.runEvents script fuel "main"
        ⟨.program (importsOf program.statements) program.statements, [], 0⟩ s.machine) cleared s'
  | call {es : List (Event Value)} {cleared : List TaskId} {s s' : Session} {fuel : ℕ}
      {name : String} {args : List Value} {callee : Value} {out : Except Fault Value}
      (h : Orderly config host es cleared s)
      (hl : s.world.heap.scopes.lookup s.world.globals name = .ok callee)
      (hc : (call fuel name args).run s = some (out, s'))
      (hstall : ∀ f, out = .error f → f.cause ≠ .stalled)
      (hshow : ∀ id ∈ s'.sched.unhandled, s'.shows id = true) :
      Orderly config host (es ++ Machine.runEvents script fuel name
        ⟨.invoke callee args outside, [], 0⟩ s.clearUnhandled.machine)
        (cleared ++ s.sched.unhandled) s'
  | pass {es : List (Event Value)} {cleared : List TaskId} {s : Session} {v : HostValue} {x : Value}
      {heap : Heap} (h : Orderly config host es cleared s)
      (hv : v.toValue.run s.world.heap = .ok (x, heap)) :
      Orderly config host es cleared
        ⟨{ s.machine with world := { s.world with heap } }, s.reported⟩

/-- The lists of a session agree with its history, the host was told of all that was ever listed,
    and after an operation whose queue was drained nothing is missing from that. -/
structure InOrder (es : List (Event Value)) (cleared : List TaskId) (s : Session) : Prop where
  rests : Machine.Rests (fun es sched => (sched.relist cleared).Reported es) es s.sched
  reported : s.reportedTasks = cleared ++ s.sched.unhandled
  complete : ∀ es' main, es = es' ++ [.returned main] → ∀ id,
    (s.sched.stateOf id).isRejected = true →
      .started id true ∈ es ∨ WaitedFor es id ∨ s.reportedTasks.count id = 1

variable {es : List (Event Value)} {cleared : List TaskId}

theorem inOrder_new (config : Config) (host : Host) : InOrder [] [] (new config host) where
  rests := ⟨Scheduler.reported_fresh _, Scheduler.mainOutermost_fresh _, rfl⟩
  reported := rfl
  complete es' main h := by simp at h

/-- What is cleared is not forgotten. -/
theorem InOrder.clear (h : InOrder es cleared s) :
    InOrder es (cleared ++ s.sched.unhandled) s.clearUnhandled where
  rests := by
    obtain ⟨hholds, hmain, hrunning⟩ := h.rests
    refine ⟨?_, ⟨hmain.exists_main, hmain.outermost⟩, hrunning⟩
    have hsame : s.clearUnhandled.sched.relist (cleared ++ s.sched.unhandled) =
        s.sched.relist cleared := by
      simp [Scheduler.relist, clearUnhandled, Session.sched]
    rw [hsame]
    exact hholds
  reported := h.reported.trans (List.append_nil _).symm
  complete := h.complete

/-- An operation that finds nothing listed, and whose main task does not wait for ever. -/
theorem InOrder.operation {t : Thread} {ended : Except Halt TaskId}
    {m : Machine Thread Value World} (h : InOrder es cleared s) (hlist : s.sched.unhandled = [])
    (hm : Machine.run script fuel name t s.machine = some (ended, m)) (hs : s'.sched = m.sched)
    (hr : Reporting s ended s') (hstall : ∀ f, ended = .error (.fault f) → f.cause ≠ .stalled)
    (hshow : ∀ id ∈ s'.sched.unhandled, s'.shows id = true) :
    InOrder (es ++ Machine.runEvents script fuel name t s.machine) cleared s' := by
  have hrests := h.rests.run (Scheduler.lasting_reported.relist cleared) hm
  rw [← hs] at hrests
  cases ended with
  | ok id =>
    have hreported : s'.reportedTasks = cleared ++ s'.sched.unhandled := by
      have hall : s'.sched.unhandled.takeWhile s'.shows = s'.sched.unhandled :=
        List.takeWhile_eq_self_iff.mpr hshow
      rw [hr.ok id rfl, hall, h.reported, hlist, List.append_nil]
    refine ⟨hrests, hreported, fun es' main _ x hx => ?_⟩
    have hreports := Machine.reports_run cleared h.rests (Machine.run_eq_ok hm)
    rw [← hs] at hreports
    have hevents : es ++ Machine.runEvents script fuel name t s.machine =
        (es ++ .started s.machine.sched.nextId true ::
          Machine.drainEvents script fuel (Machine.startMain script name t s.machine)) ++
            [.returned id] := by
      simp [Machine.runEvents, hm]
    rw [hevents, waitedFor_concat, hreported]
    obtain hmain | hwaited | hcount := hreports.all x hx
    · exact .inl (List.mem_append_left _ hmain)
    · exact .inr (.inl (.inl hwaited))
    · exact .inr (.inr hcount)
  | error why =>
    refine ⟨hrests, ?_, fun es' main heq => absurd heq (Machine.runEvents_error hm)⟩
    obtain hd | ⟨pos, task, rfl⟩ := Machine.run_eq_error hm
    · have hsame := Machine.unreporting_tick.iterate Machine.faithful_tick
        (Machine.drain_eq_error hd).1
      rw [hr.error why rfl, h.reported, hs, hsame]
      rfl
    · exact absurd rfl (hstall _ rfl)

theorem Orderly.inOrder {config : Config} {host : Host} (h : Orderly config host es cleared s) :
    InOrder es cleared s := by
  induction h with
  | new => exact inOrder_new config host
  | run _ hlist hr hstall hshow ih =>
    obtain ⟨ended, m, hm, hsched, -, hreport, hout⟩ := run_reports hr
    exact ih.operation hlist hm hsched hreport (fun f hf => hstall f (hout _ hf)) hshow
  | @call _ _ s s' _ _ _ callee _ _ hl hc hstall hshow ih =>
    obtain ⟨cause, hl', -⟩ | ⟨callee', hl', ended, m, hm, hsched, -, hreport, hout⟩ :=
      call_reports hc
    · rw [hl] at hl'
      cases hl'
    · rw [hl] at hl'
      cases hl'
      exact ih.clear.operation rfl hm hsched ⟨hreport.ok, hreport.error⟩
        (fun f hf => hstall f (hout _ hf)) hshow
  | pass _ _ ih => exact ⟨ih.rests, ih.reported, ih.complete⟩

/-- In an orderly session the host is told of no task twice and only of rejected ones; and after an
    operation whose queue was drained each rejected task is the main task of an operation, or was
    waited for, or the host was told of it once. -/
theorem Orderly.reported_once {config : Config} {host : Host}
    (h : Orderly config host es cleared s) :
    s.reportedTasks.Nodup ∧
    (∀ id ∈ s.reportedTasks, (s.sched.stateOf id).isRejected = true) ∧
    ∀ es' main, es = es' ++ [.returned main] → ∀ id, (s.sched.stateOf id).isRejected = true →
      .started id true ∈ es ∨ WaitedFor es id ∨ s.reportedTasks.count id = 1 := by
  obtain ⟨⟨hholds, -, -⟩, hreported, hcomplete⟩ := h.inOrder
  refine ⟨?_, fun id hid => ?_, hcomplete⟩
  · rw [hreported]
    exact hholds.unhandled_nodup
  · rw [hreported] at hid
    exact hholds.unhandled_rejected id hid

end Session

end CoScript
