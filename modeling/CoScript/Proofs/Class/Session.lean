import CoScript.Proofs.Class.Evaluation
import CoScript.Proofs.Session.Basic
import CoScript.Proofs.Task.Values

/-!
# Classes in sessions

A host runs the texts of programs, calls their functions and passes values. At every move of every
run, whatever tasks take turns, each class is younger than the one above it, so that no class is
above itself, unless the host brings in a class that is yet to be made.

Results:
* `advances_script`: threads get a world with some classes to one with more.
* `Host.Grounded`, `Session.LedWithin`: hosts that bring in no such class, and their sessions.
* `Session.LedWithin.call_gives`: what such a session gives its host is no such class either.
* `Session.classes_ranked`: classes in a session are younger than those above them.
-/

namespace CoScript

variable {n : ℕ}

/-! ## Threads as bodies -/

/-- The stages of a world are the numbers of its classes. -/
def classStaging : Staging Thread Value World :=
  ⟨World.Within, Thread.Within, Value.Within⟩

theorem Value.Within.awaited {v : Value} (h : v.Within n) : v.awaited.All (Value.Within n) := by
  cases v <;> exact h

theorem Move.Within.action {m : Move} (h : m.Within n) (t : Thread) :
    (t.action m).All (Thread.Within n) ∧ (t.action m).Gives (Value.Within n) := by
  cases m with
  | go control stack => exact ⟨⟨h.1, h.2⟩, trivial⟩
  | await v stack => exact ⟨⟨trivial, h.2⟩, h.1.awaited⟩
  | spawn name child stack =>
    have hcall : StackWithin n [.call] := List.forall_mem_singleton.mpr trivial
    exact ⟨⟨⟨h.1, hcall⟩, fun _ => ⟨trivial, h.2⟩⟩, trivial⟩
  | finish v => exact ⟨trivial, h⟩
  | throw v pos => exact ⟨trivial, h⟩

/-- What threads do gets a world with some classes to one with the same or more, and threads and
    values stay within the classes that there are. -/
theorem advances_script : script.Advances classStaging where
  body_mono hn h := Thread.Within.mono hn h
  value_mono hn h := Value.Within.mono hn h
  default := trivial
  act {n w tasks t} hw htasks ht := by
    obtain ⟨n', hn, hworld, hmove⟩ := ht.step (.of_tasks htasks) hw
    refine ⟨n', hn, ?_⟩
    change (t.act w tasks).1.All (Thread.Within n') ∧
      (t.act w tasks).1.Gives (Value.Within n') ∧ (t.act w tasks).2.Within n'
    unfold Thread.act
    generalize (t.step (.ofTasks tasks)).run w = out at hworld hmove
    obtain ⟨(f | cause) | move, w'⟩ := out
    · exact ⟨trivial, trivial, hworld⟩
    · exact ⟨trivial, trivial, hworld⟩
    · obtain ⟨hall, hgives⟩ := (hmove move rfl).action t
      exact ⟨hall, hgives, hworld⟩
  resume {n t got} ht hgot := by
    refine ⟨?_, ht.stack⟩
    cases got <;> exact hgot
  note hw := { hw with }

/-! ## Sessions -/

/-- A host that brings in no class that is yet to be made: its heap is in order, the names that it
    adds, what its functions remember and the modules that it offers stand for values in it, and its
    functions make up no class. -/
structure Host.Grounded (host : Host) : Prop where
  heap : host.heap.Within host.heap.classes.size
  names : ∀ e ∈ host.names, e.2.Within host.heap.classes.size
  functions : host.functions.All (HostFunction.Within host.heap.classes.size)
  memory : host.memory.Within host.heap.classes.size
  resolvers : host.resolvers.Within host.heap.classes.size

/-- A host that brings nothing. -/
theorem Host.grounded_none (maxDepth : ℕ) : (Host.none maxDepth).Grounded where
  heap :=
    { scopes := fun _ => Ordered.all_empty
      arrays := fun _ _ hv => absurd hv (Array.not_mem_empty _)
      objects := fun _ => Ordered.all_empty
      instances := fun _ => Ordered.all_empty
      size := rfl
      ranked := Heap.ranked_empty }
  names := by simp [Host.none]
  functions := Ordered.all_empty
  memory := trivial
  resolvers := fun _ => Ordered.all_empty

namespace Session

/-- The classes of a session. -/
def classCount (s : Session) : ℕ :=
  s.world.heap.classes.size

/-- The sessions of a host that passes no class that is yet to be made: it runs texts of programs,
    calls functions, and passes values. -/
inductive LedWithin (config : Config) (host : Host) : Session → Prop
  | new : LedWithin config host (new config host)
  | run {s s' : Session} {fuel : ℕ} {source : String} {out : Except Failure RunResult}
      (h : LedWithin config host s) (hr : runText fuel source s = some (out, s')) :
      LedWithin config host s'
  | call {s s' : Session} {fuel : ℕ} {name : String} {args : List Value} {out : Except Fault Value}
      (h : LedWithin config host s) (ha : ∀ v ∈ args, v.Within s.classCount)
      (hc : (call fuel name args).run s = some (out, s')) : LedWithin config host s'
  | pass {s : Session} {v : HostValue} {x : Value} {heap : Heap} (h : LedWithin config host s)
      (hv : v.Within s.classCount) (ht : v.toValue.run s.world.heap = .ok (x, heap)) :
      LedWithin config host ⟨{ s.machine with world := { s.world with heap } }, s.reported⟩

/-! ### The start -/

theorem within_bindAll {h : Heap} (hh : h.Within n) (r : Ref .scope)
    {bs : List (String × Binding)} (hb : ∀ e ∈ bs, e.2.value.Within n) :
    (h.bindAll r bs).Within n := by
  unfold Heap.bindAll
  induction bs generalizing h with
  | nil => exact hh
  | cons e bs ih =>
    obtain ⟨he, hbs⟩ := List.forall_mem_cons.mp hb
    exact ih (hh.bind r e.1 he) hbs

theorem within_newGlobals {h : Heap} (hh : h.Within n) {names : List (String × Value)}
    (hn : ∀ e ∈ names, e.2.Within n) : (h.newGlobals names).2.Within n := by
  have hbuiltins (f : Ref .function) : ∀ e ∈ builtins f, e.2.value.Within n := by
    simp [builtins, Value.Within]
  have hroot : h.newRoot.2.Within n :=
    within_bindAll ((hh.withFunctions _).push Ordered.all_empty) _ (hbuiltins _)
  refine (within_bindAll hroot _ fun e he => ?_).push Ordered.all_empty
  obtain ⟨e', he', rfl⟩ := List.mem_map.mp he
  exact hn e' (List.mem_of_mem_filter he')

theorem at_new {config : Config} {host : Host} (hh : host.Grounded) :
    (new config host).machine.At classStaging host.heap.classes.size :=
  ⟨⟨within_newGlobals hh.heap hh.names, hh.functions, hh.memory, hh.resolvers⟩, .fresh _⟩

/-! ### Operations -/

variable {s s' : Session}

/-- A main task that starts within the classes that there are. -/
theorem from_startMain {m : Machine Thread Value World} {name : String} {control : Control}
    (hm : m.From classStaging n) (hc : control.Within n) :
    (Machine.startMain script name ⟨control, [], 0⟩ m).From classStaging n := by
  obtain ⟨n', hn, hm⟩ := hm
  have hthread : Thread.Within n ⟨control, [], 0⟩ := ⟨hc, List.forall_mem_nil _⟩
  exact ⟨n', hn, hm.startMain advances_script name (hthread.mono hn)⟩

/-- Operations keep a session within the classes that there are. -/
theorem kept_within (n : ℕ) :
    KeptWith (·.From classStaging n) fun control => control.Within n where
  run hc hm hr := (Machine.kept_from advances_script n).run (from_startMain hm hc) hr
  record _ _ _ hm := hm.imp fun _ hk => ⟨hk.1, { hk.2.world with }, hk.2.sched⟩
  forget hm := hm.imp fun _ hk => ⟨hk.1, hk.2.world,
    ⟨⟨hk.2.sched.bodies.running, hk.2.sched.bodies.ready, hk.2.sched.bodies.waiting⟩,
      hk.2.sched.states, hk.2.sched.queue⟩⟩

/-- A call from outside starts with the value of a name and the arguments. -/
theorem from_call {fuel : ℕ} {name : String} {args : List Value} {out : Except Fault Value}
    (h : s.machine.At classStaging n) (ha : ∀ v ∈ args, v.Within n)
    (hc : (call fuel name args).run s = some (out, s')) : s'.machine.From classStaging n := by
  have hn := kept_within n
  obtain ⟨callee, s₁, hlookup, hrest⟩ | ⟨e, hlookup, -⟩ := InSession.bind_eq_some hc
  · obtain ⟨rfl, ⟨v, ⟨⟩, hv⟩ | ⟨_, ⟨⟩, -⟩⟩ := lookup_eq_some hlookup
    have hinvoke : Control.Within n (.invoke callee args outside) := ⟨h.world.heap.lookup hv, ha⟩
    have hquiet : Quiet (·.From classStaging n) (do
        modify clearUnhandled
        let id ← runMain fuel name (.invoke callee args outside)
        let _ ← reportAll
        let v ← resultOf id
        return (← get).settledValue v) :=
      .bind (.modify fun _ hs => hn.forget hs) fun _ => .bind (hn.runMain hinvoke) fun _ =>
        .bind hn.reportAll fun _ => .bind KeptWith.resultOf fun _ => .bind .get fun _ => .pure
    exact hquiet s₁ out s' hrest h.here
  · obtain ⟨rfl, -⟩ := lookup_eq_some hlookup
    exact h.here

/-- All values in a session of a host that brings in no class are within the classes that there
    are. -/
theorem LedWithin.at {config : Config} {host : Host} (hh : host.Grounded)
    (h : LedWithin config host s) : s.machine.At classStaging s.classCount := by
  have hcount {s : Session} {n : ℕ} (hs : s.machine.From classStaging n) :
      s.machine.At classStaging s.classCount := by
    obtain ⟨n', -, hs⟩ := hs
    have hsize : s.classCount = n' := hs.world.heap.size
    exact hsize ▸ hs
  induction h with
  | new => exact hcount (at_new hh).here
  | run _ hr ih =>
    have hfrom := ih.here.mono (Nat.zero_le _)
    exact hcount ((kept_within 0).runText (fun _ _ => trivial) hr hfrom)
  | call _ ha hc ih => exact hcount (from_call ih ha hc)
  | pass _ hv ht ih =>
    have hheap := (within_toValue hv _ _ _ ht ih.world.heap).1
    exact hcount (Machine.At.here ⟨{ ih.world with heap := hheap }, ih.sched⟩)

/-- The value of a call is within the classes that there are then, so the host may pass it on. -/
theorem LedWithin.call_gives {config : Config} {host : Host} (hh : host.Grounded)
    (h : LedWithin config host s) {fuel : ℕ} {name : String} {args : List Value} {v : Value}
    (ha : ∀ a ∈ args, a.Within s.classCount)
    (hc : (Session.call fuel name args).run s = some (.ok v, s')) : v.Within s'.classCount := by
  have hstates := ((h.call ha hc).at hh).sched.states
  obtain ⟨callee, s₁, -, hc⟩ | ⟨_, -, ⟨⟩⟩ := InSession.bind_eq_some hc
  obtain ⟨_, s₂, -, hc⟩ | ⟨_, -, ⟨⟩⟩ := InSession.bind_eq_some hc
  obtain ⟨id, s₃, -, hc⟩ | ⟨_, -, ⟨⟩⟩ := InSession.bind_eq_some hc
  obtain ⟨_, s₄, -, hc⟩ | ⟨_, -, ⟨⟩⟩ := InSession.bind_eq_some hc
  obtain ⟨x, s₅, hresult, hlast⟩ | ⟨_, -, ⟨⟩⟩ := InSession.bind_eq_some hc
  obtain rfl := resultOf_eq_some hresult
  rw [InSession.run_get_bind] at hlast
  obtain ⟨rfl, rfl⟩ : s₅ = s' ∧ s₅.settledValue x = v := by
    cases hlast
    exact ⟨rfl, rfl⟩
  have hfulfilled {id : TaskId} {x : Value} (hx : s₅.sched.stateOf id = .fulfilled x) :
      x.Within s₅.classCount := by
    have hid := hstates id
    change (s₅.sched.stateOf id).All _ at hid
    rwa [hx] at hid
  have hx := hfulfilled (resultOf_eq_ok hresult)
  unfold settledValue
  split
  · split
    · rename_i hy
      exact hfulfilled hy
    · exact hx
  · exact hx

/-! ### The order of classes -/

/-- At every move of running a program or of a call from outside, in a session of a host that brings
    in no class that is yet to be made, each class is younger than the one above it. So no class is
    above itself, and the way up from a class has an end. -/
theorem classes_ranked {config : Config} {host : Host} (hh : host.Grounded)
    (h : LedWithin config host s) :
    (∀ program : Program, ∀ k, (Machine.after (Machine.tick script) k
      (Machine.startMain script "main" ⟨.program (importsOf program.statements) program.statements,
        [], 0⟩ s.machine)).world.heap.Ranked) ∧
    ∀ name callee args k, callee.Within s.classCount → (∀ v ∈ args, v.Within s.classCount) →
      (Machine.after (Machine.tick script) k (Machine.startMain script name
        ⟨.invoke callee args outside, [], 0⟩ s.machine)).world.heap.Ranked := by
  have hrun {name : String} {control : Control} (hc : control.Within s.classCount) (k : ℕ) :
      (Machine.after (Machine.tick script) k (Machine.startMain script name ⟨control, [], 0⟩
        s.machine)).world.heap.Ranked := by
    obtain ⟨n', -, hm⟩ := (Machine.kept_from advances_script s.classCount).after
      (from_startMain (h.at hh).here hc) k
    exact hm.world.heap.ranked
  refine ⟨fun program k => hrun ?_ k, fun name callee args k hcallee ha => hrun ?_ k⟩
  · trivial
  · exact ⟨hcallee, ha⟩

end Session

end CoScript
