import CoScript.Proofs.Jump.Evaluation
import CoScript.Proofs.Jump.Parsed
import CoScript.Proofs.Session.Basic
import CoScript.Proofs.Task.Bodies

/-!
# Jumps in sessions

A host runs the texts of programs and calls their functions, one after the other. At every move of
every run, whatever tasks take turns, a jump is caught inside the function or the program that it
stands in.

Results:
* `keeps_script`: the threads of a script stay confined.
* `Session.Led`: the sessions that a host leads.
* `Session.jumps_caught`: each jump in a session is caught.
-/

namespace CoScript

/-! ## Threads as bodies -/

theorem Move.Confined.action {m : Move} (h : m.Confined) (t : Thread) :
    (t.action m).All Thread.Confined := by
  cases m with
  | go control stack => exact ⟨h.1, h.2⟩
  | await v stack => exact ⟨trivial, h⟩
  | spawn name child stack => exact ⟨⟨h.1, trivial, trivial⟩, fun _ => ⟨trivial, h.2⟩⟩
  | finish v => trivial
  | throw v pos => trivial

/-- The threads of a script stay confined, whatever they get when their waits are over. -/
theorem keeps_script : script.Keeps World.Confined Thread.Confined where
  act {w} tasks {t} hw ht := by
    obtain ⟨hworld, hmove⟩ := ht.step (.ofTasks tasks) w hw
    change (t.act w tasks).1.All Thread.Confined ∧ (t.act w tasks).2.Confined
    unfold Thread.act
    generalize (t.step (.ofTasks tasks)).run w = out at hworld hmove
    obtain ⟨r, w'⟩ := out
    cases r with
    | ok m => exact ⟨(hmove m rfl).action t, hworld⟩
    | error why => cases why <;> exact ⟨trivial, hworld⟩
  resume {t got} ht := by
    refine ⟨?_, ht.stack⟩
    cases got <;> trivial
  note hw := hw

/-- Every thread of a machine is confined, and all functions of its world. -/
abbrev Machine.Confined (m : Machine Thread Value World) : Prop :=
  m.All World.Confined Thread.Confined

/-! ## Sessions -/

namespace Session

/-- The sessions that a host leads: it runs texts of programs, calls functions, and passes
    values. -/
inductive Led (config : Config) (host : Host) : Session → Prop
  | new : Led config host (new config host)
  | run {s s' : Session} {fuel : ℕ} {source : String} {out : Except Failure RunResult}
      (h : Led config host s) (hr : runText fuel source s = some (out, s')) : Led config host s'
  | call {s s' : Session} {fuel : ℕ} {name : String} {args : List Value} {out : Except Fault Value}
      (h : Led config host s) (hc : (call fuel name args).run s = some (out, s')) :
      Led config host s'
  | pass {s : Session} {v : HostValue} {x : Value} {heap : Heap} (h : Led config host s)
      (hv : v.toValue.run s.world.heap = .ok (x, heap)) :
      Led config host ⟨{ s.machine with world := { s.world with heap } }, s.reported⟩

/-- Operations keep a machine confined: a main task starts with a program whose jumps are caught, or
    with a call. -/
theorem kept_confined :
    KeptWith Machine.Confined fun control => control.Confined [] where
  run hc hs hm := hs.run keeps_script hm ⟨hc, trivial⟩
  record _ _ _ hs := ⟨hs.world, hs.bodies⟩
  forget hs := ⟨hs.world, hs.bodies.running, hs.bodies.ready, hs.bodies.waiting⟩

theorem Heap.Confined.newGlobals {h : Heap} (hh : h.Confined) (names : List (String × Value)) :
    (h.newGlobals names).2.Confined := by
  have hbind {h : Heap} (hh : h.Confined) (r : Ref .scope) (bs : List (String × Binding)) :
      (h.bindAll r bs).Confined := hh.congr rfl rfl
  have hscope {h : Heap} (hh : h.Confined) (parent : Option (Ref .scope)) (isFunction : Bool) :
      (h.newScope parent isFunction).2.Confined := hh.congr rfl rfl
  have hroot : (h.newRoot).2.Confined :=
    hbind (hscope (hh.newFunction (f := .print) trivial) none true) _ _
  exact hscope (hbind hroot _ _) _ _

theorem confined_new {config : Config} {host : Host} (hh : host.heap.Confined) :
    (new config host).machine.Confined := by
  exact ⟨Heap.Confined.newGlobals hh host.names, Scheduler.all_fresh _⟩

/-- Whatever a host does, no thread of its session has a jump that nothing catches. -/
theorem Led.confined {config : Config} {host : Host} {s : Session} (hh : host.heap.Confined)
    (h : Led config host s) : s.machine.Confined := by
  induction h with
  | new => exact confined_new hh
  | run _ hr ih => exact kept_confined.runText (fun _ hp => parse_confined hp) hr ih
  | call _ hc ih => exact kept_confined.call (fun _ => trivial) _ _ _ hc ih
  | pass _ hv ih => exact ⟨leaves_toValue stable_confined.toInert _ _ _ _ _ hv ih.world, ih.bodies⟩

/-! ## Jumps are caught -/

end Session

/-- A jump of a thread is caught on its stack, and the body of a function starts right above the
    frame of its call, which catches its returns. -/
structure Thread.JumpsCaught (t : Thread) : Prop where
  caught : ∀ how, t.control = .leave how → (∀ v pos, how ≠ .thrown v pos) → Caught how t.stack
  starts : ∀ params args body scope, t.control = .bind params args body scope →
    StartsBody t.stack

theorem Thread.Confined.jumpsCaught {t : Thread} (h : t.Confined) : t.JumpsCaught := by
  refine ⟨fun how hc ht => h.caught hc ht, fun params args body scope hc => ?_⟩
  have hcontrol := h.control
  rw [hc] at hcontrol
  exact hcontrol.2.2

namespace Session

/-- In a session that a host leads, at every move of running the text of a program or of a call from
    outside, each thread that runs has its jumps caught: a `break` or a `continue` by a loop or a
    switch and a `return` by the call of a function, with only frames of statements between. -/
theorem jumps_caught {config : Config} {host : Host} {s : Session} (hh : host.heap.Confined)
    (h : Led config host s) :
    (∀ source program n, parse source = .ok program →
      ∀ p ∈ (Machine.after (Machine.tick script) n (Machine.startMain script "main"
        ⟨.program (importsOf program.statements) program.statements, [], 0⟩
        s.machine)).sched.running, p.body.JumpsCaught) ∧
    ∀ name callee args n,
      ∀ p ∈ (Machine.after (Machine.tick script) n (Machine.startMain script name
        ⟨.invoke callee args outside, [], 0⟩ s.machine)).sched.running, p.body.JumpsCaught := by
  have hcaught {name : String} {t : Thread} (ht : t.Confined) (n : ℕ) : ∀ p ∈ (Machine.after
      (Machine.tick script) n (Machine.startMain script name t s.machine)).sched.running,
      p.body.JumpsCaught := by
    intro p hp
    have hmain := (h.confined hh).startMain keeps_script name ht
    exact ((hmain.after keeps_script n).bodies.running p hp).jumpsCaught
  refine ⟨fun source program n hp => hcaught ?_ n, fun name callee args n => hcaught ?_ n⟩
  · exact ⟨parse_confined hp, trivial⟩
  · exact ⟨trivial, trivial⟩

/-- The heap of a host that brings nothing holds no code. -/
theorem confined_none {maxDepth : ℕ} : (Host.none maxDepth).heap.Confined :=
  ⟨by simp [Host.none, Heap.empty], by simp [Host.none, Heap.empty]⟩

theorem jumps_caught_in_loop : ∃ program,
    parse "function f() \x7b while (true) \x7b return \x7d \x7d f()" = .ok program ∧ ∀ n,
      ∀ p ∈ (Machine.after (Machine.tick script) n (Machine.startMain script "main"
        ⟨.program (importsOf program.statements) program.statements, [], 0⟩
        (new ⟨10, false, by decide⟩ (.none 100)).machine)).sched.running, p.body.JumpsCaught := by
  cases hp : parse "function f() \x7b while (true) \x7b return \x7d \x7d f()" with
  | ok program => exact ⟨program, rfl, fun n => (jumps_caught confined_none .new).1 _ program n hp⟩
  | error e =>
    have hok : (parse "function f() \x7b while (true) \x7b return \x7d \x7d f()").isOk = true := by
      decide +kernel
    rw [hp] at hok
    cases hok

end Session

end CoScript
