import CoScript.Proofs.Jump.Session
import CoScript.Proofs.Reach.Turns

/-!
# Histories of sessions

A host runs programs and calls functions, one after the other; while it does so tasks take turns,
and between its calls it passes values and takes note of what was reported. A history lists the
turns in which threads act. From turn to turn nothing is taken from the heap, each scope stays where
it is, and a thread starts in no scope at all.

Results:
* `Session.History`: the turns of a session, and the machine that they lead to.
* `History.sound`, `History.order`: everything lies in scopes that exist, and the heap only grows.
* `History.still`: between turns no scope is written.
* `History.chain`: the turns of one task.
* `History.starts_clear`: a thread starts in no scope.
* `History.apart_after`, `History.apart_others`: the scopes that threads keep out of.
* `Session.Led.resting`: the sessions that hosts lead have histories.
-/

namespace CoScript

variable {K : Ref .scope → Prop} {w w' : World} {id : TaskId} {ts : List TaskTurn} {t : TaskTurn}

/-! ## Specification -/

/-- What a thread does that is started from outside. -/
def Control.FromOutside : Control → Prop
  | .program .. | .invoke .. => True
  | _ => False

namespace Machine

/-- The turn of a thread on a machine. -/
def turnOf (m : Machine Thread Value World) (p : Parked Thread) : TaskTurn :=
  ⟨⟨m.world, p.body⟩, p.id, m.sched.tasks⟩

/-- The turn that comes next on a machine, if a thread runs. -/
def turns (m : Machine Thread Value World) : List TaskTurn :=
  (m.sched.running.take 1).map m.turnOf

/-- What a host does between its calls: it is told of rejections and takes note of them, it forgets
    them, and it passes values. -/
inductive Between (m : Machine Thread Value World) : Machine Thread Value World → Prop
  | report : Between m ⟨m.sched.report, m.world⟩
  | record (level : Level) (source : LogSource) (message : String) :
    Between m ⟨m.sched, m.world.record level source message⟩
  | forget : Between m ⟨{ m.sched with unhandled := [] }, m.world⟩
  | pass {v : HostValue} {x : Value} {heap : Heap}
    (hv : v.toValue.run m.world.heap = .ok (x, heap)) : Between m ⟨m.sched, { m.world with heap }⟩

end Machine

/-- The turns of a session that a host leads, and the machine that they lead to. -/
inductive Session.History (config : Config) (host : Host) :
    List TaskTurn → Machine Thread Value World → Prop
  | new : History config host [] (Session.new config host).machine
  | tick {ts : List TaskTurn} {m : Machine Thread Value World} (h : History config host ts m) :
    History config host (ts ++ m.turns) (Machine.tick script m).state
  | start {ts : List TaskTurn} {m : Machine Thread Value World} (h : History config host ts m)
    (hr : m.sched.running = []) (name : String) {control : Control} (hc : control.FromOutside) :
    History config host ts (Machine.startMain script name ⟨control, [], 0⟩ m)
  | between {ts : List TaskTurn} {m m' : Machine Thread Value World} (h : History config host ts m)
    (hr : m.sched.running = []) (hm : m.Between m') : History config host ts m'

/-! ## Moves of a machine -/

theorem World.Later.note (hl : w.Later K w') (n : Notice) : w.Later K (w'.note n) :=
  (World.Later.inert K w).inert hl rfl rfl rfl rfl

/-- The scopes are some given ones. -/
theorem inert_scopes (s : Scopes) : Inert (·.heap.scopes = s) where
  inert hw _ _ _ hs := hs.trans hw
  native _ hw := hw
  named {w} v name hw := by
    cases v <;> exact hw

/-- A thread from outside starts in no scope. -/
theorem Control.FromOutside.clear {c : Control} (hc : c.FromOutside) : c.Clear K w := by
  cases c <;> first | exact .nowhere rfl rfl | exact hc.elim

namespace Machine

variable {m m' : Machine Thread Value World} {i : TaskId} {outer : List (Parked Thread)}
  {R S : Parked Thread → Prop} {I : World → Prop}

theorem turns_of_running {p : Parked Thread} (hr : m.sched.running = p :: outer) :
    m.turns = [m.turnOf p] := by
  rw [turns, hr]
  rfl

theorem turns_of_rest (hr : m.sched.running = []) : m.turns = [] := by
  rw [turns, hr]
  rfl

/-- A move changes nothing, lets a thread go on that was put aside, or lets one act. -/
theorem tick_cases (m : Machine Thread Value World) :
    (m.sched.running = [] ∧ (tick script m).state = m) ∨
    (∃ r rest, m.sched.running = [] ∧ m.sched.ready = r :: rest ∧
      (tick script m).state = m.turn script r rest) ∨
    ∃ p outer, m.sched.running = p :: outer ∧ (tick script m).state =
      (perform script ⟨m.sched, (m.turnOf p).after⟩ p.id outer (m.turnOf p).action).state := by
  cases hr : m.sched.running with
  | nil =>
    cases hq : m.sched.ready with
    | nil =>
      rw [tick_of_rest hr hq]
      exact .inl ⟨rfl, rfl⟩
    | cons r rest =>
      rw [tick_of_ready hr hq]
      split
      · exact .inl ⟨rfl, rfl⟩
      · exact .inr (.inl ⟨r, rest, rfl, rfl, rfl⟩)
  | cons p outer =>
    rw [tick_of_running_eq hr]
    exact .inr (.inr ⟨p, outer, rfl, rfl⟩)

/-- What is logged of an action is all that becomes of the world. -/
theorem keeps_perform (hI : Inert I) {a : Action Thread Value} (hm : I m.world) :
    I (perform script m i outer a).state.world := by
  have hnote {w : World} (n : Notice) (hw : I w) : I (w.note n) := hI.inert hw rfl rfl rfl rfl
  cases a with
  | proceed | abort => exact hm
  | await | spawn | finish | throw => exact hnote _ hm
  | fail f =>
    unfold perform
    dsimp only
    split
    · exact hm
    · exact hnote _ (hnote _ hm)

theorem later_perform {a : Action Thread Value} (hl : w.Later K m.world) :
    w.Later K (perform script m i outer a).state.world :=
  keeps_perform (World.Later.inert K w) hl

theorem everywhere_perform_state {a : Action Thread Value}
    (h : (m.withRunning outer).sched.Everywhere R S) (ha : a.Places R S i m.sched.nextId) :
    (perform script m i outer a).state.sched.Everywhere R S := by
  have hperform := everywhere_perform (B := script) h ha
  generalize perform script m i outer a = out at hperform ⊢
  cases out <;> exact hperform

namespace Between

theorem running (h : m.Between m') : m'.sched.running = m.sched.running := by
  cases h <;> rfl

theorem tasks (h : m.Between m') : m'.sched.tasks = m.sched.tasks := by
  cases h <;> rfl

theorem everywhere (h : m.Between m') (hm : m.sched.Everywhere R S) :
    m'.sched.Everywhere R S := by
  cases h <;> exact ⟨hm.running, hm.ready, hm.waiting⟩

theorem accounted {failed : List TaskId} (h : m.Between m') (hm : m.sched.Accounted failed) :
    m'.sched.Accounted failed := by
  cases h <;> exact ⟨hm.1, hm.2, hm.3, hm.4⟩

theorem keeps (h : m.Between m') (hI : Inert I) (hm : I m.world) : I m'.world := by
  cases h with
  | report | forget => exact hm
  | record => exact hI.inert hm rfl rfl rfl rfl
  | pass hv => exact leaves_toValue hI m.world _ _ _ _ hv hm

theorem later (h : m.Between m') (hw : w.Later K m.world) : w.Later K m'.world :=
  h.keeps (World.Later.inert K w) hw

end Between

/-! ## Everything has its place -/

/-- Everything lies in scopes that exist, on a machine. -/
structure Sound (m : Machine Thread Value World) : Prop where
  world : m.world.Keeping NoScope
  bodies : m.sched.Everywhere (·.body.Clear NoScope m.world) (·.body.Clear NoScope m.world)

end Machine

/-- What holds of all threads of an action holds of them wherever they come to stand. -/
theorem Action.All.places {P : Thread → Prop} {a : Action Thread Value} {new : TaskId}
    (ha : a.All P) : a.Places (P ·.body) (P ·.body) id new := by
  cases a <;> exact ha

namespace Machine

variable {m m' : Machine Thread Value World} {p : Parked Thread} {outer : List (Parked Thread)}

namespace Sound

theorem turn (hm : m.Sound) (hr : m.sched.running = p :: outer) : (m.turnOf p).Sound :=
  ⟨hm.world, hm.bodies.running p (by rw [hr]; exact List.mem_cons_self)⟩

/-- The threads of a machine lie in scopes that go on to exist. -/
theorem of_later (hl : w.Later NoScope m.world)
    (hb : m.sched.Everywhere (·.body.Clear NoScope w) (·.body.Clear NoScope w)) : m.Sound :=
  ⟨hl.after, fun p hp => hl.thread (hb.running p hp), fun r hr => hl.thread (hb.ready r hr),
    fun id t ht p hp => hl.thread (hb.waiting id t ht p hp)⟩

theorem tick (hm : m.Sound) :
    (tick script m).state.Sound ∧ m.world.Later NoScope (tick script m).state.world := by
  obtain ⟨-, h⟩ | ⟨r, rest, -, hq, h⟩ | ⟨p, outer, hr, h⟩ := m.tick_cases <;> rw [h]
  · exact ⟨hm, .refl hm.world⟩
  · have hready := hm.bodies.ready
    rw [hq] at hready
    obtain ⟨hfirst, hrest⟩ := List.forall_mem_cons.mp hready
    refine ⟨⟨hm.world, fun p hp => ?_, hrest, hm.bodies.waiting⟩, .refl hm.world⟩
    obtain rfl := List.mem_singleton.mp hp
    exact hfirst.resume _
  · have hturn := hm.turn hr
    obtain ⟨hl, hall⟩ := hturn.thread.act hturn.world not_enters_noScope (m.turnOf p).tasks
    have hworld : (m.turnOf p).after.Later NoScope (perform script ⟨m.sched, (m.turnOf p).after⟩
        p.id outer (m.turnOf p).action).state.world := later_perform (.refl hl.after)
    refine ⟨of_later hworld (everywhere_perform_state ?_ hall.places), hl.trans hworld⟩
    have hothers := hm.bodies
    refine ⟨fun q hq => hl.thread (hothers.running q ?_),
      fun r hr => hl.thread (hothers.ready r hr),
      fun id t ht q hq => hl.thread (hothers.waiting id t ht q hq)⟩
    rw [hr]
    exact List.mem_cons_of_mem p hq

theorem startMain (hm : m.Sound) (name : String) {control : Control} (hc : control.FromOutside) :
    (startMain script name ⟨control, [], 0⟩ m).Sound ∧
      m.world.Later NoScope (startMain script name ⟨control, [], 0⟩ m).world := by
  have hl : m.world.Later NoScope (Machine.startMain script name ⟨control, [], 0⟩ m).world :=
    (World.Later.refl hm.world).note _
  refine ⟨of_later hl ?_, hl⟩
  have hthread : Thread.Clear NoScope m.world ⟨control, [], 0⟩ := ⟨hc.clear, by simp⟩
  have hstart := hm.bodies.start name hthread true
  exact ⟨hstart.running, hstart.ready, hstart.waiting⟩

theorem between (hm : m.Sound) (h : m.Between m') :
    m'.Sound ∧ m.world.Later NoScope m'.world :=
  ⟨of_later (h.later (.refl hm.world)) (h.everywhere hm.bodies), h.later (.refl hm.world)⟩

end Sound

end Machine

/-! ## Histories -/

namespace Session.History

variable {config : Config} {host : Host} {m : Machine Thread Value World}

theorem sound (hh : host.heap.Placed) (h : History config host ts m) : m.Sound := by
  induction h with
  | new =>
    obtain ⟨hscoped, hhas⟩ := hh.newGlobals host.names
    exact ⟨⟨⟨hscoped, fun _ hk => hk.elim⟩, Heap.clear_none hhas⟩, .fresh _⟩
  | tick _ ih => exact ih.tick.1
  | start _ _ name hc ih => exact (ih.startMain name hc).1
  | between _ _ hm ih => exact (ih.between hm).1

/-- In each turn everything lies in scopes that exist, and from there on the heap only grows. -/
theorem turns_sound (hh : host.heap.Placed) (h : History config host ts m) :
    ∀ t ∈ ts, t.Sound ∧ t.after.Later NoScope m.world := by
  induction h with
  | new => simp
  | @tick ts m h ih =>
    have hm := h.sound hh
    intro t ht
    obtain ht | ht := List.mem_append.mp ht
    · exact ⟨(ih t ht).1, (ih t ht).2.trans hm.tick.2⟩
    · obtain ⟨hr, -⟩ | ⟨r, rest, hr, -, -⟩ | ⟨p, outer, hr, htick⟩ := m.tick_cases
      · simp [Machine.turns_of_rest hr] at ht
      · simp [Machine.turns_of_rest hr] at ht
      · rw [Machine.turns_of_running hr, List.mem_singleton] at ht
        subst ht
        rw [htick]
        have hturn := hm.turn hr
        exact ⟨hturn, Machine.later_perform (.refl hturn.later.after)⟩
  | start h _ name hc ih =>
    exact fun t ht => ⟨(ih t ht).1, (ih t ht).2.trans ((h.sound hh).startMain name hc).2⟩
  | between h _ hm ih =>
    exact fun t ht => ⟨(ih t ht).1, (ih t ht).2.trans ((h.sound hh).between hm).2⟩

/-- From turn to turn the heap only grows. -/
theorem order (hh : host.heap.Placed) (h : History config host ts m) :
    ts.Pairwise fun t t' => t.after.Later NoScope t'.world := by
  induction h with
  | new => exact .nil
  | @tick ts m h ih =>
    have hturns : m.turns = [] ∨ ∃ p, m.turns = [m.turnOf p] := by
      cases hr : m.sched.running with
      | nil => exact .inl (Machine.turns_of_rest hr)
      | cons p outer => exact .inr ⟨p, Machine.turns_of_running hr⟩
    obtain hturns | ⟨p, hturns⟩ := hturns <;> rw [hturns]
    · rwa [List.append_nil]
    · refine List.pairwise_append.mpr ⟨ih, List.pairwise_singleton _ _, fun t ht t' ht' => ?_⟩
      obtain rfl := List.mem_singleton.mp ht'
      exact (h.turns_sound hh t ht).2
  | start _ _ _ _ ih => exact ih
  | between _ _ _ ih => exact ih

/-- Scopes are written in turns and nowhere else. -/
theorem still (h : History config host ts m) :
    ts.IsChain (fun t t' => t'.world.heap.scopes = t.after.heap.scopes) ∧
      ∀ t ∈ ts.getLast?, m.world.heap.scopes = t.after.heap.scopes := by
  induction h with
  | new => exact ⟨.nil, by simp⟩
  | @tick ts m h ih =>
    obtain ⟨hchain, hlast⟩ := ih
    obtain ⟨hr, htick⟩ | ⟨r, rest, hr, -, htick⟩ | ⟨p, outer, hr, htick⟩ := m.tick_cases <;>
      rw [htick]
    · rw [Machine.turns_of_rest hr, List.append_nil]
      exact ⟨hchain, hlast⟩
    · rw [Machine.turns_of_rest hr, List.append_nil]
      exact ⟨hchain, hlast⟩
    · rw [Machine.turns_of_running hr]
      refine ⟨hchain.append (.singleton _) fun t ht t' ht' => ?_, fun t ht => ?_⟩
      · obtain rfl := Option.some.inj ht'
        exact hlast t ht
      · rw [List.getLast?_concat] at ht
        obtain rfl := Option.some.inj ht
        exact Machine.keeps_perform (inert_scopes _) rfl
  | start h _ name hc ih => exact ih
  | between h _ hm ih =>
    exact ⟨ih.1, fun t ht => hm.keeps (inert_scopes _) (ih.2 t ht)⟩

/-- A thread that runs takes the next turn. -/
theorem tick_of_running {p : Parked Thread} {outer : List (Parked Thread)}
    (h : History config host ts m) (hr : m.sched.running = p :: outer) :
    History config host (ts ++ [m.turnOf p]) (Machine.tick script m).state :=
  Machine.turns_of_running hr ▸ h.tick

theorem accounted (h : History config host ts m) : ∃ failed, m.sched.Accounted failed := by
  induction h with
  | new => exact ⟨[], Scheduler.accounted_fresh _⟩
  | tick _ ih =>
    obtain ⟨failed, hacc⟩ := ih
    exact Machine.accounted_tick hacc
  | @start _ _ _ _ name control hc ih =>
    obtain ⟨failed, hacc⟩ := ih
    have hstart := hacc.start name ⟨control, [], 0⟩ true
    exact ⟨failed, hstart.1, hstart.2, hstart.3, hstart.4⟩
  | between _ _ hm ih =>
    obtain ⟨failed, hacc⟩ := ih
    exact ⟨failed, hm.accounted hacc⟩

/-! ### The turns of one task -/

/-- Each turn of a task leads to its next, and the machine lets it go on from the last. -/
theorem chain_and_next (hh : host.heap.Placed) (h : History config host ts m) (id : TaskId) :
    (TaskTurn.ofTask id ts).IsChain TaskTurn.Before ∧
      ∀ t ∈ (TaskTurn.ofTask id ts).getLast?, m.Continues t.LeadsTo id := by
  induction h with
  | new => exact ⟨.nil, by simp [TaskTurn.ofTask]⟩
  | @tick ts m h ih =>
    obtain ⟨hchain, hlast⟩ := ih
    obtain ⟨failed, hacc⟩ := h.accounted
    cases hr : m.sched.running with
    | nil =>
      have hnone : m.momentsOf id = [] := by simp [Machine.momentsOf, hr]
      rw [Machine.turns_of_rest hr, List.append_nil]
      exact ⟨hchain, fun t ht => (hlast t ht).tick hnone⟩
    | cons p outer =>
      rw [Machine.turns_of_running hr, TaskTurn.ofTask_append]
      by_cases hid : p.id = id
      · subst hid
        have hnow : ⟨m.world, p.body⟩ ∈ m.momentsOf p.id := by simp [Machine.momentsOf, hr]
        rw [TaskTurn.ofTask_cons_of_eq (show (m.turnOf p).id = p.id from rfl)]
        refine ⟨hchain.append (.singleton _) fun t ht t' ht' => ?_, fun t ht => ?_⟩
        · obtain rfl := Option.some.inj ht'
          have hmem := (TaskTurn.mem_ofTask.mp (List.mem_of_mem_getLast? ht)).1
          exact ⟨(hlast t ht).now _ hnow, (h.turns_sound hh t hmem).2⟩
        · rw [TaskTurn.ofTask_nil, List.getLast?_concat] at ht
          obtain rfl := Option.some.inj ht
          rw [Machine.tick_of_running_eq hr]
          exact Machine.continues_perform (m := ⟨m.sched, (m.turnOf p).after⟩)
            (hacc.continues_outer hr) fun _ => (m.turnOf p).continues
      · have hnone : m.momentsOf id = [] := by simp [Machine.momentsOf, hr, hid]
        rw [TaskTurn.ofTask_cons_of_ne (t := m.turnOf p) hid, TaskTurn.ofTask_nil, List.append_nil]
        exact ⟨hchain, fun t ht => (hlast t ht).tick hnone⟩
  | @start ts m _ hr name control hc ih =>
    obtain ⟨hchain, hlast⟩ := ih
    refine ⟨hchain, fun t ht => .of_sched ?_⟩
    have hlater := ((hlast t ht).of_rest hr).start name ⟨control, [], 0⟩ true
    exact ⟨hlater.known, hlater.bodies.running, hlater.bodies.ready, hlater.bodies.waiting⟩
  | between _ hr hm ih =>
    obtain ⟨hchain, hlast⟩ := ih
    refine ⟨hchain, fun t ht => .of_sched ?_⟩
    have hrest := (hlast t ht).of_rest hr
    exact ⟨hm.tasks ▸ hrest.known, hm.everywhere hrest.bodies⟩

theorem chain (hh : host.heap.Placed) (h : History config host ts m) (id : TaskId) :
    (TaskTurn.ofTask id ts).IsChain TaskTurn.Before :=
  (h.chain_and_next hh id).1

/-- A thread that a turn starts lies in no scope. The thread that the turn was for has acted. -/
theorem places_turn (ht : t.Sound) (ts : List TaskTurn) (new : TaskId)
    (hl : t.after.Later NoScope w) :
    t.action.Places
      (fun p => TaskTurn.ofTask p.id (ts ++ [t]) = [] → ∀ K, p.body.Clear K w)
      (fun p => TaskTurn.ofTask p.id (ts ++ [t]) ≠ []) t.id new := by
  have hacted := TaskTurn.ofTask_concat_ne_nil ts t
  cases haction : t.action with
  | proceed => exact fun hnone => absurd hnone hacted
  | await => exact hacted
  | spawn name child parent =>
    refine ⟨fun _ K => hl.thread ?_, fun _ hnone => absurd hnone hacted⟩
    exact ht.thread.spawned ht.world not_enters_noScope haction K
  | _ => trivial

/-- A thread starts in no scope at all. A thread that was put aside has acted before. -/
theorem starts_clear (hh : host.heap.Placed) (h : History config host ts m) :
    (∀ id, ∀ t ∈ (TaskTurn.ofTask id ts).head?, ∀ K, t.thread.Clear K t.world) ∧
      m.sched.Everywhere
        (fun p => TaskTurn.ofTask p.id ts = [] → ∀ K, p.body.Clear K m.world)
        (fun p => TaskTurn.ofTask p.id ts ≠ []) := by
  induction h with
  | new => exact ⟨by simp [TaskTurn.ofTask], .fresh _⟩
  | @tick ts m h ih =>
    obtain ⟨hfirst, hall⟩ := ih
    obtain ⟨hr, htick⟩ | ⟨r, rest, hr, hq, htick⟩ | ⟨p, outer, hr, htick⟩ := m.tick_cases <;>
      rw [htick]
    · rw [Machine.turns_of_rest hr, List.append_nil]
      exact ⟨hfirst, hall⟩
    · rw [Machine.turns_of_rest hr, List.append_nil]
      have hready := hall.ready
      rw [hq] at hready
      obtain ⟨hacted, hrest⟩ := List.forall_mem_cons.mp hready
      refine ⟨hfirst, fun p hp hnone => ?_, hrest, hall.waiting⟩
      obtain rfl := List.mem_singleton.mp hp
      exact absurd hnone hacted
    · have hturn := (h.sound hh).turn hr
      have hworld : (m.turnOf p).after.Later NoScope (Machine.perform script
          ⟨m.sched, (m.turnOf p).after⟩ p.id outer (m.turnOf p).action).state.world :=
        Machine.later_perform (.refl hturn.later.after)
      have hl := hturn.later.trans hworld
      -- a task without a turn so far has none but this one
      have hbefore {i : TaskId} (hnone : TaskTurn.ofTask i (ts ++ [m.turnOf p]) = []) :=
        TaskTurn.ofTask_eq_nil_of_concat hnone
      have hrunning := hall.running
      rw [hr] at hrunning
      obtain ⟨hp, houter⟩ := List.forall_mem_cons.mp hrunning
      rw [Machine.turns_of_running hr]
      refine ⟨fun id t ht => ?_, Machine.everywhere_perform_state ⟨fun q hq hnone K => ?_,
        fun r hr hnone => hall.ready r hr (hbefore hnone),
        fun i t ht q hq hnone => hall.waiting i t ht q hq (hbefore hnone)⟩
        (places_turn hturn ts _ hworld)⟩
      · obtain ht | ⟨hnone, rfl, rfl⟩ := TaskTurn.mem_head?_ofTask_concat ht
        · exact hfirst id t ht
        · exact hp hnone
      · exact hl.thread (houter q hq (hbefore hnone) K)
  | @start ts m h hr name control hc ih =>
    obtain ⟨hfirst, hall⟩ := ih
    refine ⟨hfirst, fun p hp _ K => ?_, hall.ready, ?_⟩
    · obtain rfl | hp := List.mem_cons.mp hp
      · exact ⟨hc.clear, by simp⟩
      · exact absurd hp (by simp [hr])
    · have hthread (_ : TaskTurn.ofTask m.sched.nextId ts = []) (K) :
          Thread.Clear K m.world ⟨control, [], 0⟩ := ⟨hc.clear, by simp⟩
      exact (hall.start name hthread true).waiting
  | between h hr hm ih =>
    obtain ⟨hfirst, hall⟩ := ih
    have hl := ((h.sound hh).between hm).2
    refine ⟨hfirst, fun p hp hnone K => hl.thread ?_, (hm.everywhere hall).ready,
      (hm.everywhere hall).waiting⟩
    exact hall.running p (hm.running ▸ hp) hnone K

/-! ### Scopes that threads keep out of -/

section Apart

variable {before after rest : List TaskTurn} {first : TaskTurn} {r : Ref .scope}

/-- After a turn of a history, worlds come later and scopes that exist do so still. -/
theorem later_turns (hh : host.heap.Placed) (h : History config host (before ++ t :: after) m) :
    t.Sound ∧ ∀ t' ∈ after, t'.Sound ∧ t.after.Later NoScope t'.world := by
  have hsound := h.turns_sound hh
  have horder := (List.pairwise_append.mp (h.order hh)).2.1
  refine ⟨(hsound t (by simp)).1, fun t' ht' => ⟨(hsound t' (by simp [ht'])).1, ?_⟩⟩
  exact List.rel_of_pairwise_cons horder ht'

/-- From a turn of a history on, the world only grows. -/
theorem later_of_mem (hh : host.heap.Placed)
    (h : History config host (before ++ first :: rest) m) (ht : t ∈ first :: rest) :
    first.Sound ∧ first.world.Later NoScope t.world := by
  obtain ⟨hfirst, hlater⟩ := h.later_turns hh
  refine ⟨hfirst, ?_⟩
  obtain rfl | ht := List.mem_cons.mp ht
  · exact .refl hfirst.world
  · exact hfirst.later.trans (hlater t ht).2

/-- The turns of a task from one on. -/
theorem task_turns (hh : host.heap.Placed)
    (h : History config host (before ++ first :: rest) m) :
    (first :: TaskTurn.ofTask first.id rest).IsChain TaskTurn.Before ∧
      ∀ t ∈ first :: TaskTurn.ofTask first.id rest, t.Sound := by
  have hchain := h.chain hh first.id
  rw [TaskTurn.ofTask_append, TaskTurn.ofTask_cons_of_eq rfl] at hchain
  refine ⟨hchain.right_of_append, fun t ht => ?_⟩
  rw [← TaskTurn.ofTask_cons_of_eq rfl] at ht
  exact (h.turns_sound hh t (List.mem_append_right _ (TaskTurn.mem_ofTask.mp ht).1)).1

/-- The turns of a task from one on are steps of its thread. -/
theorem steps (hh : host.heap.Placed) (h : History config host (before ++ first :: rest) m) :
    (first.toMoment :: (TaskTurn.ofTask first.id rest).map (·.toMoment)).IsChain Moment.Step :=
  List.isChain_map (fun t : TaskTurn => t.toMoment) |>.mpr <|
    (h.task_turns hh).1.imp fun _ _ hbefore => hbefore.leads.step

/-- Once a thread goes on clear of a scope, it leaves the scope alone, but for visits. -/
theorem apart_after (hh : host.heap.Placed) (h : History config host (before ++ t :: after) m)
    (hw : t.after.Keeping (· = r)) (hclear : t.action.All (Thread.Clear (· = r) t.after)) :
    Apart r (TaskTurn.ofTask t.id after) := by
  obtain ⟨-, hlater⟩ := h.later_turns hh
  have hchain := h.chain hh t.id
  rw [TaskTurn.ofTask_append, TaskTurn.ofTask_cons_of_eq rfl] at hchain
  obtain ⟨hnext, hrest⟩ := List.isChain_cons.mp hchain.right_of_append
  have hmem {t' : TaskTurn} (ht' : t' ∈ TaskTurn.ofTask t.id after) : t' ∈ after :=
    (TaskTurn.mem_ofTask.mp ht').1
  refine apart_of_clear hrest (fun t' ht' => (hlater t' (hmem ht')).1)
    (fun t' ht' => (hlater t' (hmem ht')).2.keeping hw) fun t' ht' => ?_
  exact (hnext t' ht').later.thread ((hnext t' ht').leads.clear hclear)

/-- Other tasks than the one that makes a scope leave it alone, but for visits. -/
theorem apart_others (hh : host.heap.Placed) (h : History config host (before ++ t :: after) m)
    (ht : t.Makes r) (hid : id ≠ t.id) : Apart r (TaskTurn.ofTask id after) := by
  obtain ⟨hsound, hlater⟩ := h.later_turns hh
  have hchain := h.chain hh id
  have hfirst := (h.starts_clear hh).1 id
  rw [TaskTurn.ofTask_append, TaskTurn.ofTask_cons_of_ne hid.symm] at hchain hfirst
  have hmem {t' : TaskTurn} (ht' : t' ∈ TaskTurn.ofTask id after) : t' ∈ after :=
    (TaskTurn.mem_ofTask.mp ht').1
  refine apart_of_clear hchain.right_of_append (fun t' ht' => (hlater t' (hmem ht')).1)
    (fun t' ht' => (hlater t' (hmem ht')).2.keeping (hsound.later.keeping_of_new ht.new ht.made))
    fun t' ht' => ?_
  cases hlast : (TaskTurn.ofTask id before).getLast? with
  | none =>
    rw [List.getLast?_eq_none_iff.mp hlast, List.nil_append] at hfirst
    exact hfirst t' ht' _
  | some t₀ =>
    -- the thread stands where it stood before the scope was made
    have hold : t₀ ∈ before := (TaskTurn.mem_ofTask.mp (List.mem_of_mem_getLast? hlast)).1
    have hnext := (List.isChain_append.mp hchain).2.2 t₀ hlast t' ht'
    have hbefore : t₀.after.Later NoScope t.world :=
      (List.pairwise_append.mp (h.order hh)).2.2 t₀ hold t List.mem_cons_self
    have hsound₀ := (h.turns_sound hh t₀ (List.mem_append_left _ hold)).1
    exact hnext.later.clear_of_older (fun hr => ht.new (hbefore.grows.has hr))
      (hsound₀.next hnext.leads)

end Apart

/-! ### What hosts do -/

theorem iterate {m' : Machine Thread Value World} {fuel : ℕ} {out : Except Halt Unit}
    (h : History config host ts m) (hm : m.sched.MainOutermost)
    (hi : Machine.iterate (Machine.tick script) fuel m = some (out, m')) :
    ∃ ts, History config host ts m' ∧ m'.sched.running = [] ∧ m'.sched.MainOutermost := by
  induction fuel, m, hi using Machine.iterate_induction generalizing ts with
  | next fuel m m₁ hmove _ ih =>
    have htick := h.tick
    rw [hmove] at htick
    exact ih htick (hm.step (Machine.tick_next hmove))
  | idle fuel m hmove =>
    have htick := h.tick
    rw [hmove] at htick
    obtain ⟨rfl, hr, -⟩ := Machine.tick_idle hmove
    exact ⟨_, htick, hr, hm⟩
  | halted fuel m why hmove =>
    have htick := h.tick
    rw [hmove] at htick
    refine ⟨_, htick, ?_⟩
    cases why with
    | fault f =>
      obtain ⟨hstep, hr⟩ := Machine.faithful_tick.halted hmove hm
      exact ⟨hr, hm.step hstep⟩
    | aborted =>
      rw [(Machine.tick_aborted hmove).2]
      exact ⟨rfl, hm.dropped⟩

end Session.History

/-- Between the calls of a host no thread runs. -/
structure Session.Resting (config : Config) (host : Host) (m : Machine Thread Value World) :
    Prop where
  history : ∃ ts, History config host ts m
  running : m.sched.running = []
  main : m.sched.MainOutermost

theorem Session.kept_resting {config : Config} {host : Host} :
    KeptWith (Resting config host) Control.FromOutside where
  run {fuel name control m m' out} hc hm hrun := by
    obtain ⟨⟨ts, hts⟩, hr, hmain⟩ := hm
    obtain ⟨ended, hd, -⟩ := Machine.run_eq_some hrun
    have hstart : (Machine.startMain script name ⟨control, [], 0⟩ m).sched.MainOutermost :=
      hmain.step (Machine.startMain_step script name ⟨control, [], 0⟩ hr)
    obtain ⟨m₁, hi, hend⟩ := Machine.drain_eq_some hd
    obtain ⟨ts', hts', hr', hmain'⟩ := (hts.start hr name hc).iterate hstart hi
    obtain ⟨-, rfl⟩ | ⟨why, -, rfl⟩ := hend
    · exact ⟨⟨ts', hts'.between hr' .report⟩, hr', hmain'.exists_main, hmain'.outermost⟩
    · exact ⟨⟨ts', hts'⟩, hr', hmain'⟩
  record level source message hm := by
    obtain ⟨⟨ts, hts⟩, hr, hmain⟩ := hm
    exact ⟨⟨ts, hts.between hr (.record level source message)⟩, hr, hmain⟩
  forget hm := by
    obtain ⟨⟨ts, hts⟩, hr, hmain⟩ := hm
    exact ⟨⟨ts, hts.between hr .forget⟩, hr, hmain.exists_main, hmain.outermost⟩

/-- Each session that a host leads has a history. -/
theorem Session.Led.resting {config : Config} {host : Host} {s : Session}
    (h : Led config host s) : Resting config host s.machine := by
  induction h with
  | new => exact ⟨⟨[], .new⟩, rfl, Scheduler.mainOutermost_fresh _⟩
  | run _ hr ih => exact kept_resting.runText (fun _ _ => trivial) hr ih
  | call _ hc ih => exact kept_resting.call (fun _ => trivial) _ _ _ hc ih
  | pass _ hv ih =>
    obtain ⟨⟨ts, hts⟩, hr, hmain⟩ := ih
    exact ⟨⟨ts, hts.between hr (.pass hv)⟩, hr, hmain⟩

end CoScript
