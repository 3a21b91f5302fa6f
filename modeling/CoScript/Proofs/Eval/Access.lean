import CoScript.Proofs.Try.Completion

/-!
# Names and keys

On arrays, strings, plain objects and instances a string key reads what the name reads, and on plain
objects and instances it writes what the name writes. A call is different: `o.f()` hands the object
on as the receiver, and `o["f"]()` hands on nothing. Functions that take no receiver do not see the
difference, and methods of instances bring their own; any other function of the script finds
`undefined` where it would find the object.

Results:
* `getIndex_string`, `setIndex_string`: a string key is a name.
* `Thread.act_key`: the steps of `o["a"]` end in the step of `o.a`.
* `receive_callee`: the two calls collect arguments for one function and two receivers.
* `callFunction_eq_of_not_closure`, `enterFunction_eq_of_isArrow`: calls that see no receiver.
* `run_enterFunction`, `lookup_receiverScope`: what a function of the script finds as `this`.
-/

namespace CoScript

open Effect

/-- The values whose members can be read by key. -/
inductive Value.HasKeys : Value → Prop
  | array (r : Ref .array) : HasKeys (.array r)
  | string (s : String) : HasKeys (.string s)
  | object (r : Ref .object) : HasKeys (.object r)
  | inst (r : Ref .inst) : HasKeys (.inst r)

/-- The values whose members can be written. -/
inductive Value.HasFields : Value → Prop
  | object (r : Ref .object) : HasFields (.object r)
  | inst (r : Ref .inst) : HasFields (.inst r)

variable {ps : Promises} {v : Value} {a : String}

/-! ## Reading and writing -/

/-- A string is its own text as a key. -/
theorem keyDisplay_string : keyDisplay ps (.string a) = pure a :=
  rfl

/-- A string key reads the member of that name. -/
theorem getIndex_string (hv : v.HasKeys) (pos : Position) :
    getIndex ps v (.string a) pos = getMember v a pos := by
  cases hv <;> rfl

/-- A string key writes the member of that name. -/
theorem setIndex_string (hv : v.HasFields) (new : Value) (pos : Position) :
    setIndex ps v (.string a) new pos = setMember v a new pos := by
  cases hv <;> rfl

/-- A place given by a string key has the value of the place given by the name. -/
theorem readPlace_element (hv : v.HasKeys) (pos : Position) :
    readPlace ps (.element v (.string a) pos) = readPlace ps (.member v a pos) :=
  getIndex_string hv pos

/-- Writes of the two places are the same. -/
theorem writePlace_element (hv : v.HasFields) (new : Value) (pos : Position) :
    writePlace ps new (.element v (.string a) pos) = writePlace ps new (.member v a pos) :=
  setIndex_string hv new pos

theorem Value.HasFields.hasKeys (hv : v.HasFields) : v.HasKeys := by
  cases hv <;> constructor

/-- A step of a number at the two places is the same. -/
theorem stepPlace_element (hv : v.HasFields) (op : UpdateOp) (before : Bool) (pos pos' : Position) :
    stepPlace ps (.element v (.string a) pos) op before pos' =
      stepPlace ps (.member v a pos) op before pos' := by
  simp only [stepPlace, readPlace_element hv.hasKeys, writePlace_element hv]

/-- A value arrives at the two places in the same way, whatever the operator of the assignment. -/
theorem receive_write_element (hv : v.HasFields) (new : Value) (pos : Position)
    (stack : List Frame) :
    (Frame.write (.element v (.string a) pos)).receive ps new stack =
        (Frame.write (.member v a pos)).receive ps new stack ∧
      ∀ op old pos', (Frame.combine (.element v (.string a) pos) op old pos').receive ps new stack =
        (Frame.combine (.member v a pos) op old pos').receive ps new stack := by
  simp only [Frame.receive, writePlace_element hv, true_and, implies_true]

/-- The key is a literal: two steps later the thread does what it does for the name. -/
theorem Thread.act_key (hv : v.HasKeys) (w : World) (tasks : Array (Task Thread Value))
    (pos litPos : Position) (scope : Ref .scope) (below : List Frame) (base : Nat) :
    ∃ t₁ t₂ : Thread,
      Thread.act w tasks
          ⟨.ret v, .indexKey (.literal litPos (.string a)) pos scope :: below, base⟩ =
        (.proceed t₁, w) ∧
      Thread.act w tasks t₁ = (.proceed t₂, w) ∧
      Thread.act w tasks t₂ = Thread.act w tasks ⟨.ret v, .memberOf a pos :: below, base⟩ := by
  refine ⟨⟨.eval (.literal litPos (.string a)) scope, .indexApply v pos :: below, base⟩,
    ⟨.ret (.string a), .indexApply v pos :: below, base⟩, rfl, rfl, ?_⟩
  have hreceive : (Frame.indexApply v pos).receive (.ofTasks tasks) (.string a) below =
      (Frame.memberOf a pos).receive (.ofTasks tasks) v below := by
    simp only [Frame.receive, getIndex_string hv]
  simp only [Thread.act, Thread.step, Thread.give, hreceive]
  rfl

/-! ## Calls -/

section Calls

variable {w : World} {r : Ref .function} {c : Closure} {args : List Value} {stack : List Frame}

/-- The arguments of a call are collected for the member, and for the object as the receiver if the
    callee is written with a name, for none if it is written with a key. -/
theorem receive_callee (hv : v.HasKeys) (attrPos pos : Position) (what what' : String)
    (args : List Expr) (scope : Ref .scope) :
    (Frame.methodOf a attrPos args what pos scope).receive ps v stack =
        (getMember v a attrPos >>= fun f =>
          collectArgs ps (.call f v what pos) [] args scope stack) ∧
      (getIndex ps v (.string a) attrPos >>= fun f =>
          (Frame.calleeOf args what' pos scope).receive ps f stack) =
        (getMember v a attrPos >>= fun f =>
          collectArgs ps (.call f .undefined what' pos) [] args scope stack) := by
  rw [getIndex_string hv]
  exact ⟨rfl, rfl⟩

/-- A function that is not one of the script sees no receiver; a method of an instance brings its
    own. -/
theorem callFunction_eq_of_not_closure (hr : ∀ c, w.heap.function r ≠ .closure c)
    (receiver other : Value) (pos : Position) :
    (callFunction ps r args receiver pos stack).run w =
      (callFunction ps r args other pos stack).run w := by
  unfold callFunction
  rw [run_heap_bind, run_heap_bind]
  cases hf : w.heap.function r with
  | closure c => exact absurd hf (hr c)
  | _ => rfl

/-- Calls of a function of the script differ in nothing but the receiver. -/
theorem callFunction_closure (hr : w.heap.function r = .closure c) (receiver : Value)
    (pos : Position) : (callFunction ps r args receiver pos stack).run w =
      (.ok (callClosure c args receiver stack), w) := by
  unfold callFunction
  rw [run_heap_bind, hr]
  rfl

/-- An arrow function sees no receiver. -/
theorem enterFunction_eq_of_isArrow (hc : c.isArrow = true) (receiver other : Value) :
    enterFunction c args receiver stack = enterFunction c args other stack := by
  simp only [enterFunction, hc, Bool.not_true, Bool.false_eq_true, if_false]

/-- The scope of a call with a receiver. -/
def receiverScope (parent : Ref .scope) (receiver above : Value) : Scope :=
  ⟨some parent, true, ⟨[("this", ⟨receiver, false⟩), ("super", ⟨above, false⟩)]⟩⟩

/-- The world with one scope more. -/
def World.withScope (w : World) (c : Scope) : World :=
  { w with heap := { w.heap with scopes := ⟨w.heap.scopes.cells.push c⟩ } }

/-- Names are free in a new scope. -/
theorem run_bindReceiver (w : World) (parent : Ref .scope) (receiver above : Value) :
    (bindReceiver ⟨w.heap.scopes.cells.size⟩ receiver above).run
        (w.withScope ⟨some parent, true, .empty⟩) =
      (.ok (), w.withScope (receiverScope parent receiver above)) := by
  have hdefine (c : Scope) {name : String} (v : Value) (h : c.bindings.contains name = false) :
      (define ⟨w.heap.scopes.cells.size⟩ name v false none).run (w.withScope c) =
        (.ok (), w.withScope { c with bindings := c.bindings.set name ⟨v, false⟩ }) := by
    rw [run_define _ _ _ _ (by rw [Scopes.defineFault?, World.withScope, get_push_size, h]; rfl)]
    simp only [World.withScope, bind_push_size]
  exact (run_bind_ok (hdefine _ receiver rfl) _).trans (hdefine _ above rfl)

/-- A name that a scope binds means what it binds. -/
theorem lookup_of_binding? {s : Scopes} {scope : Ref .scope} {name : String} {b : Binding}
    (h : s.binding? scope name = some b) : s.lookup scope name = .ok b.value := by
  have hcontains : (s.get scope).bindings.contains name = true := by
    rw [Ordered.contains, ← Scopes.binding?, h, Option.isSome_some]
  have hfind : s.find? scope name = some scope := by
    unfold Scopes.find?
    cases scope.index <;> simp only [Scopes.climb, hcontains, if_true]
  rw [Scopes.lookup, Scopes.resolve?, hfind, Option.bind_eq_bind, Option.bind_some, h]

/-- In the scope of a call with a receiver, `this` and `super` are what was bound. -/
theorem lookup_receiverScope (w : World) (parent : Ref .scope) (receiver above : Value) :
    let s := (w.withScope (receiverScope parent receiver above)).heap.scopes
    s.lookup ⟨w.heap.scopes.cells.size⟩ "this" = .ok receiver ∧
      s.lookup ⟨w.heap.scopes.cells.size⟩ "super" = .ok above := by
  have hget : (w.withScope (receiverScope parent receiver above)).heap.scopes.get
      ⟨w.heap.scopes.cells.size⟩ = receiverScope parent receiver above := get_push_size ..
  exact ⟨lookup_of_binding? (b := ⟨receiver, false⟩) (by rw [Scopes.binding?, hget]; rfl),
    lookup_of_binding? (b := ⟨above, false⟩) (by rw [Scopes.binding?, hget]; rfl)⟩

/-- Any other function of the script finds the receiver of its call as `this`. -/
theorem run_enterFunction (hc : c.isArrow = false) (receiver : Value) :
    (enterFunction c args receiver stack).run w =
      (.ok (.go (.bind c.params args c.body ⟨w.heap.scopes.cells.size⟩) stack),
        w.withScope (receiverScope c.scope receiver (superOf w.heap c.home))) := by
  unfold enterFunction
  have hbind := run_bindReceiver w c.scope receiver (superOf w.heap c.home)
  simp only [hc]
  exact run_bind_ok hbind _

end Calls

end CoScript
