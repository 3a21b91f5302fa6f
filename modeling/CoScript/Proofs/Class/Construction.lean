import CoScript.Proofs.Class.Chain
import CoScript.Proofs.Eval.Access
import CoScript.Proofs.Reach.History

/-!
# The construction of an instance

`new C(…)` makes one instance. The fields are initialised one after the other, those of the topmost
class first: each value is computed with `this` bound to the instance and is stored before the next
one is computed, over an earlier one of the same name. Then the constructor of the nearest class
that has one runs on the instance, once, and the instance is the value whatever the constructor
gives. Values and constructor may wait, start tasks and throw.

Results:
* `run_construct`: the start of a construction.
* `Construction.Goes`: the moments of a construction, part by part.
* `Construction.goes_of_chain`: what a thread goes through from the start of a construction on.
* `Construction.Goes.order`: fields are initialised in their order.
* `run_evalSuperCall`, `run_callSuper`: a call of the constructor above.
* `Session.constructs`: constructions in a session.
-/

namespace CoScript

open Effect

/-! ## Specification -/

/-- A part of a construction, with the fields that are still to be initialised. -/
inductive ConstructionPart where
  | fields (todo : List PendingField)
  | value (f : PendingField) (todo : List PendingField)
  | body
  | after

/-- The frame that waits for a part of a construction. -/
def ConstructionPart.frame? (k : Construction) : ConstructionPart → Option Frame
  | .value f todo => some (.fieldValue f.field.name { k with fields := todo })
  | .body => some (.constructed k.target)
  | .fields _ | .after => none

/-- The fields that a part leaves to be initialised. -/
def ConstructionPart.todo : ConstructionPart → List PendingField
  | .fields todo => todo
  | .value f todo => f :: todo
  | .body | .after => []

/-- The world with a field of an instance written. -/
def World.withField (w : World) (r : Ref .inst) (name : String) (v : Value) : World :=
  { w with heap := w.heap.setField r name v }

/-- The scope in which the value of a field is computed: `this` is the instance, and `super` the
    class above the one that declares the field. -/
def PendingField.scope (f : PendingField) (target : Ref .inst) (w : World) : Scope :=
  receiverScope (w.heap.cls f.cls).scope (.inst target) (superOf w.heap (some f.cls))

/-- A thread goes on. -/
def Moment.goOn (m : Moment) (world : World) (control : Control) (stack : List Frame) : Moment :=
  ⟨world, { m.thread with control, stack }⟩

/-- A thread that constructs an instance has gone through some moments and is at another one, in a
    part of the construction. The fields are those that were initialised up to then. -/
inductive Construction.Goes (k : Construction) (below : List Frame) :
    List PendingField → ConstructionPart → List Moment → Moment → Prop
  | start {m : Moment} (hs : m.thread.stack = below) (hc : m.thread.control = .initialise k) :
    Goes k below [] (.fields k.fields) [] m
  /-- a field without a value -/
  | bare {done todo : List PendingField} {f : PendingField} {ms : List Moment} {m : Moment}
    (h : Goes k below done (.fields (f :: todo)) ms m) (hf : f.field.value = none) :
    Goes k below (done ++ [f]) (.fields todo) (ms ++ [m])
      (m.goOn (m.world.withField k.target f.field.name .undefined)
        (.initialise { k with fields := todo }) below)
  /-- the value of a field is computed in a scope of its own -/
  | value {done todo : List PendingField} {f : PendingField} {e : Expr} {ms : List Moment}
    {m : Moment} (h : Goes k below done (.fields (f :: todo)) ms m)
    (hf : f.field.value = some e) :
    Goes k below done (.value f todo) (ms ++ [m])
      (m.goOn (m.world.withScope (f.scope k.target m.world))
        (.eval e ⟨m.world.heap.scopes.cells.size⟩)
        (.fieldValue f.field.name { k with fields := todo } :: below))
  /-- a part is in progress -/
  | within {done : List PendingField} {part : ConstructionPart} {f : Frame} {ms : List Moment}
    {m m' : Moment} (h : Goes k below done part ms m) (hf : part.frame? k = some f)
    (hm : m.Within (f :: below)) (hstep : m.Step m') : Goes k below done part (ms ++ [m]) m'
  /-- the value of a field is stored -/
  | store {done todo : List PendingField} {f : PendingField} {v : Value} {ms : List Moment}
    {m : Moment} (h : Goes k below done (.value f todo) ms m)
    (hs : m.thread.stack = .fieldValue f.field.name { k with fields := todo } :: below)
    (hc : m.thread.control = .ret v) :
    Goes k below (done ++ [f]) (.fields todo) (ms ++ [m])
      (m.goOn (m.world.withField k.target f.field.name v)
        (.initialise { k with fields := todo }) below)
  /-- the constructor runs on the instance -/
  | enter {done : List PendingField} {c : Closure} {ms : List Moment} {m : Moment}
    (h : Goes k below done (.fields []) ms m) (hk : constructorOf? m.world.heap k.cls = some c) :
    Goes k below done .body (ms ++ [m])
      (m.goOn m.world (.enter c k.args (.inst k.target)) (.call :: .constructed k.target :: below))
  /-- there is no constructor -/
  | plain {done : List PendingField} {ms : List Moment} {m : Moment}
    (h : Goes k below done (.fields []) ms m) (hk : constructorOf? m.world.heap k.cls = none) :
    Goes k below done .after (ms ++ [m]) (m.goOn m.world (.ret (.inst k.target)) below)
  /-- the instance is the value, whatever the constructor gave -/
  | finish {done : List PendingField} {ms : List Moment} {m : Moment}
    (h : Goes k below done .body ms m) (hm : m.Ended (.constructed k.target :: below) none) :
    Goes k below done .after (ms ++ [m]) (m.goOn m.world (.ret (.inst k.target)) below)
  /-- a jump leaves the construction -/
  | jump {done : List PendingField} {part : ConstructionPart} {f : Frame} {ms : List Moment}
    {m : Moment} {how : Abrupt} (h : Goes k below done part ms m) (hf : part.frame? k = some f)
    (hm : m.Ended (f :: below) (some how)) :
    Goes k below done .after (ms ++ [m]) (m.left (some how) below)
  /-- the construction is over, and the thread goes on -/
  | beyond {done : List PendingField} {ms : List Moment} {m m' : Moment}
    (h : Goes k below done .after ms m) (hstep : m.Step m') :
    Goes k below done .after (ms ++ [m]) m'

/-! ## Steps of a construction -/

/-- One instance is made, and all fields of its class are to be initialised. -/
theorem run_construct (w : World) (r : Ref .cls) (args : List Value) (stack : List Frame) :
    (construct r args stack).run w =
      (.ok (.go (.initialise ⟨⟨w.heap.instances.size⟩, r, pendingFields w.heap r, args⟩) stack),
        { w with heap := (w.heap.newInstance ⟨r, .empty⟩).2 }) := by
  have hfields : pendingFields (w.heap.newInstance ⟨r, .empty⟩).2 r = pendingFields w.heap r :=
    pendingFields_congr (by rfl) r
  rw [← hfields]
  rfl

section Initialise

variable {k : Construction} {f : PendingField} {rest : List PendingField} {e : Expr}
  {w : World} {stack : List Frame}

theorem run_initialise_bare (hk : k.fields = f :: rest) (hf : f.field.value = none) :
    (initialise k stack).run w = (.ok (.go (.initialise { k with fields := rest }) stack),
      w.withField k.target f.field.name .undefined) := by
  unfold initialise
  simp only [hk, hf]
  rfl

theorem run_initialise_value (hk : k.fields = f :: rest) (hf : f.field.value = some e) :
    (initialise k stack).run w = (.ok (.go (.eval e ⟨w.heap.scopes.cells.size⟩)
        (.fieldValue f.field.name { k with fields := rest } :: stack)),
      w.withScope (f.scope k.target w)) := by
  have hscope : (fieldScope f k.target).run w =
      (.ok ⟨w.heap.scopes.cells.size⟩, w.withScope (f.scope k.target w)) :=
    run_bind_ok (run_bindReceiver w (w.heap.cls f.cls).scope (.inst k.target)
      (superOf w.heap (some f.cls))) _
  unfold initialise
  simp only [hk, hf]
  exact run_bind_ok hscope _

theorem run_initialise_enter {c : Closure} (hk : k.fields = [])
    (hc : constructorOf? w.heap k.cls = some c) : (initialise k stack).run w =
      (.ok (.go (.enter c k.args (.inst k.target)) (.call :: .constructed k.target :: stack)),
        w) := by
  unfold initialise
  simp only [hk]
  rw [run_heap_bind, hc]
  rfl

theorem run_initialise_plain (hk : k.fields = []) (hc : constructorOf? w.heap k.cls = none) :
    (initialise k stack).run w = (.ok (.ret (.inst k.target) stack), w) := by
  unfold initialise
  simp only [hk]
  rw [run_heap_bind, hc]
  rfl

end Initialise

/-- A thread that goes on with a construction is not too deep in calls. -/
theorem run_step_initialise {m m' : Moment} {k : Construction} (hstep : m.Step m')
    (hc : m.thread.control = .initialise k) (ps : Promises) :
    (m.thread.step ps).run m.world = (initialise k m.thread.stack).run m.world := by
  have hrun (ps : Promises) : (m.thread.step ps).run m.world =
      ((checkDepth m.thread >>= fun _ => initialise k m.thread.stack).run m.world) := by
    unfold Thread.step
    rw [hc]
  rw [hrun]
  by_cases hdepth : m.world.maxDepth < m.thread.depth
  · have hact (tasks : Array (Task Thread Value)) :
        m.thread.act m.world tasks = (.abort .callDepth, m.world) := by
      rw [Thread.act_eq, hrun, Effect.run_bind, run_checkDepth, if_pos hdepth]
      rfl
    obtain ⟨h⟩ | ⟨h⟩ | ⟨h⟩ := hstep <;> simp [hact] at h
  · rw [Effect.run_bind, run_checkDepth, if_neg hdepth]

/-! ## From moment to moment -/

namespace Construction

variable {k : Construction} {below : List Frame} {done : List PendingField}
  {part : ConstructionPart} {ms : List Moment} {m m' : Moment}

/-- The frame that waits for a part is on the stack. -/
theorem Goes.above {f : Frame} (h : Goes k below done part ms m) (hf : part.frame? k = some f) :
    f :: below <:+ m.thread.stack := by
  cases h with
  | start | bare | store | plain | finish | jump | beyond => cases hf
  | within h hf' hm hstep =>
    obtain rfl := Option.some.inj (hf.symm.trans hf')
    exact hstep.above hm.goes_on hm.above
  | value | enter =>
    obtain rfl := Option.some.inj hf
    first | exact List.suffix_rfl | exact List.suffix_cons _ _

/-- While fields are still to be initialised, the thread is about to do so. -/
theorem Goes.control {todo : List PendingField} (h : Goes k below done (.fields todo) ms m) :
    m.thread.stack = below ∧ m.thread.control = .initialise { k with fields := todo } := by
  cases h with
  | start hs hc => exact ⟨hs, hc⟩
  | bare | store => exact ⟨rfl, rfl⟩
  | within h hf => cases hf

/-- Fields are initialised in their order, and all of them before the constructor runs. -/
theorem Goes.order (h : Goes k below done part ms m) :
    done <+: k.fields ∧ (part ≠ .after → done ++ part.todo = k.fields) := by
  induction h with
  | start => exact ⟨List.nil_prefix, fun _ => rfl⟩
  | bare h hf ih | store h hs hc ih =>
    have hall := ih.2 (by simp)
    simp only [ConstructionPart.todo] at hall ⊢
    rw [List.append_cons] at hall
    exact ⟨⟨_, hall⟩, fun _ => hall⟩
  | value h hf ih => exact ⟨ih.1, fun _ => ih.2 (by simp)⟩
  | within h hf hm hstep ih => exact ih
  | enter h hk ih => exact ⟨ih.1, fun _ => ih.2 (by simp)⟩
  | plain h | finish h | jump h | beyond h =>
    rename_i ih
    exact ⟨ih.1, fun hne => absurd rfl hne⟩

/-- A jump out of a part leaves the construction. -/
theorem Goes.step_jump {f : Frame} {how : Abrupt} (h : Goes k below done part ms m)
    (hstep : m.Step m') (hf : part.frame? k = some f) (hm : m.Ended (f :: below) (some how)) :
    Goes k below done .after (ms ++ [m]) m' := by
  obtain rfl : m' = m.left (some how) below := hstep.eq_of_go fun ps => by
    cases hm with
    | abrupt w how base =>
      cases part with
      | value g todo =>
        obtain rfl := Option.some.inj hf
        cases how <;> rfl
      | body =>
        obtain rfl := Option.some.inj hf
        cases how <;> rfl
      | _ => cases hf
  exact .jump h hf hm

/-- The next field is taken up, or the constructor. -/
theorem Goes.step_fields {todo : List PendingField} (h : Goes k below done (.fields todo) ms m)
    (hstep : m.Step m') :
    ∃ done' part', Goes k below done' part' (ms ++ [m]) m' := by
  obtain ⟨rfl, hc⟩ := h.control
  have hrun := run_step_initialise hstep hc
  cases todo with
  | nil =>
    cases hk : constructorOf? m.world.heap k.cls with
    | some c =>
      obtain rfl := hstep.eq_of_go fun ps => (hrun ps).trans (run_initialise_enter rfl hk)
      exact ⟨_, _, .enter h hk⟩
    | none =>
      obtain rfl := hstep.eq_of_go fun ps => (hrun ps).trans (run_initialise_plain rfl hk)
      exact ⟨_, _, .plain h hk⟩
  | cons f todo =>
    cases hf : f.field.value with
    | none =>
      obtain rfl := hstep.eq_of_go fun ps => (hrun ps).trans (run_initialise_bare rfl hf)
      exact ⟨_, _, .bare h hf⟩
    | some e =>
      obtain rfl := hstep.eq_of_go fun ps => (hrun ps).trans (run_initialise_value rfl hf)
      exact ⟨_, _, .value h hf⟩

/-- The value of a field is there, or a jump leaves it. -/
theorem Goes.step_value {f : PendingField} {todo : List PendingField} {how : Option Abrupt}
    (h : Goes k below done (.value f todo) ms m) (hstep : m.Step m')
    (hm : m.Ended (.fieldValue f.field.name { k with fields := todo } :: below) how) :
    ∃ done' part', Goes k below done' part' (ms ++ [m]) m' := by
  cases how with
  | none =>
    cases hm with
    | normal w v base =>
      obtain rfl : m' = Moment.goOn ⟨w, ⟨.ret v, _, base⟩⟩ (w.withField k.target f.field.name v)
          (.initialise { k with fields := todo }) below := hstep.eq_of_go fun ps => rfl
      exact ⟨_, _, .store h rfl rfl⟩
  | some how => exact ⟨_, _, h.step_jump hstep rfl hm⟩

/-- The constructor is at its end, or a jump leaves it. -/
theorem Goes.step_body {how : Option Abrupt} (h : Goes k below done .body ms m)
    (hstep : m.Step m') (hm : m.Ended (.constructed k.target :: below) how) :
    ∃ done' part', Goes k below done' part' (ms ++ [m]) m' := by
  cases how with
  | none =>
    obtain rfl : m' = m.goOn m.world (.ret (.inst k.target)) below := hstep.eq_of_go fun ps => by
      cases hm with
      | normal w v base => rfl
    exact ⟨_, _, .finish h hm⟩
  | some how => exact ⟨_, _, h.step_jump hstep rfl hm⟩

/-- A thread that is in a part of a construction goes on as the construction says. -/
theorem Goes.step (h : Goes k below done part ms m) (hstep : m.Step m') :
    ∃ done' part', Goes k below done' part' (ms ++ [m]) m' := by
  cases part with
  | fields todo => exact h.step_fields hstep
  | value f todo =>
    obtain hw | ⟨how, hend⟩ := Moment.within_or_ended (h.above rfl)
    · exact ⟨_, _, .within h rfl hw hstep⟩
    · exact h.step_value hstep hend
  | body =>
    obtain hw | ⟨how, hend⟩ := Moment.within_or_ended (h.above rfl)
    · exact ⟨_, _, .within h rfl hw hstep⟩
    · exact h.step_body hstep hend
  | after => exact ⟨_, _, .beyond h hstep⟩

/-- Whatever a thread goes through from the start of a construction on, it goes through the parts of
    the construction. -/
theorem goes_of_chain {first : Moment} (hs : first.thread.stack = below)
    (hc : first.thread.control = .initialise k) (hchain : (first :: ms).IsChain Moment.Step) :
    ∃ before now, first :: ms = before ++ [now] ∧ ∃ done part, Goes k below done part before now :=
  Moment.along_chain ⟨_, _, .start hs hc⟩ (fun ⟨_, _, h⟩ hstep => h.step hstep) hchain

end Construction

/-! ## Calls of the constructor above -/

section Super

variable {ps : Promises} {w : World} {r p : Ref .cls} {receiver : Value} {args : List Value}
  {stack : List Frame}

/-- The nearest constructor of a class runs on an instance that is under construction already. -/
theorem run_superCall {c : Closure} (hc : constructorOf? w.heap p = some c) :
    (applyPurpose ps (.superCall p receiver) args stack).run w =
      (.ok (.go (.enter c args receiver) (.call :: .superDone :: stack)), w) := by
  change (callSuper p receiver args stack).run w = _
  unfold callSuper
  rw [run_heap_bind, hc]
  rfl

/-- Without a constructor above nothing happens. -/
theorem run_superCall_none (hc : constructorOf? w.heap p = none) :
    (applyPurpose ps (.superCall p receiver) args stack).run w =
      (.ok (.ret .undefined stack), w) := by
  change (callSuper p receiver args stack).run w = _
  unfold callSuper
  rw [run_heap_bind, hc]
  rfl

/-- `super(…)` stands for the class that `super` is bound to, on the instance that `this` is. -/
theorem run_evalSuperCall {scope : Ref .scope} {pos : Position} (es : List Expr)
    (hsuper : w.heap.scopes.lookup scope "super" = .ok (.cls p))
    (hthis : w.heap.scopes.lookup scope "this" = .ok receiver) :
    (evalSuperCall ps es pos scope stack).run w =
      (collectArgs ps (.superCall p receiver) [] es scope stack).run w := by
  have hlookup {name : String} {v : Value} (pos : Option Position)
      (h : w.heap.scopes.lookup scope name = .ok v) :
      (lookup scope name pos).run w = (.ok v, w) := by
    unfold lookup
    rw [run_heap_bind, h]
    rfl
  unfold evalSuperCall
  rw [run_bind_ok (hlookup (some pos) hsuper)]
  exact run_bind_ok (hlookup none hthis) _

/-- In a function of a class, `super(…)` stands for the class above, on the receiver of the call. -/
theorem run_super_in_function {c : Closure} {pos : Position} (es : List Expr)
    (hhome : c.home = some r) (hp : (w.heap.cls r).superclass = some p) :
    let scope := (⟨w.heap.scopes.cells.size⟩ : Ref .scope)
    let w' := w.withScope (receiverScope c.scope receiver (superOf w.heap c.home))
    (evalSuperCall ps es pos scope stack).run w' =
      (collectArgs ps (.superCall p receiver) [] es scope stack).run w' := by
  have habove : superOf w.heap c.home = .cls p := by simp [superOf, hhome, hp]
  have hlookup := lookup_receiverScope w c.scope receiver (superOf w.heap c.home)
  exact run_evalSuperCall es (hlookup.2.trans (congrArg _ habove)) hlookup.1

end Super

/-! ## Sessions -/

/-- Whatever a session does, a task that constructs an instance goes through the parts of the
    construction. -/
theorem Session.constructs {config : Config} {host : Host} {mach : Machine Thread Value World}
    {before rest : List TaskTurn} {first : TaskTurn} {k : Construction} (hh : host.heap.Placed)
    (h : History config host (before ++ first :: rest) mach)
    (hc : first.thread.control = .initialise k) :
    ∃ past now, (first :: TaskTurn.ofTask first.id rest).map (·.toMoment) = past ++ [now] ∧
      ∃ done part, Construction.Goes k first.thread.stack done part past now :=
  Construction.goes_of_chain rfl hc (h.steps hh)

end CoScript
