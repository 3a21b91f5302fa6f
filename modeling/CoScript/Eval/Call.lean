import CoScript.Eval.Member
import CoScript.Eval.Thread

/-!
# Calls and construction

A call makes a scope inside the one where the function was made, binds `this` unless the function
is an arrow, binds the parameters from left to right and runs the body. A call of an asynchronous
function starts a task. A new instance gets its fields from the topmost class down, and then runs
the nearest constructor.

Results:
* `callFunction`: a function gets its arguments.
* `enterFunction`, `bindParams`: the start of a function body.
* `construct`, `initialise`: a new instance.
-/

namespace CoScript

open Effect

/-! ## Functions of the language -/

/-- Prints values between blanks. -/
def printValues (ps : Promises) (args : List Value) : Effect Value := do
  let h ← heap
  let texts ← ofOption (args.mapM fun v => h.render ps v false)
  print (Text.join " " texts ++ "\n")
  return .undefined

/-- The place of a value among items. -/
def itemIndex? (items : Array Value) (v : Value) : Option Nat :=
  items.findIdx? (·.strictEquals v)

/-- A method of an array. -/
def callArrayMethod (ps : Promises) (m : ArrayMethod) (r : Ref .array) (args : List Value) :
    Effect Value := do
  let h ← heap
  let items := h.array r
  let first := args.headD .undefined
  match m with
  | .push =>
    modifyHeap (·.modifyArray r (· ++ args.toArray))
    return .ofNat ((← heap).array r).size
  | .pop =>
    modifyHeap (·.modifyArray r (·.pop))
    return items.back?.getD .undefined
  | .join =>
    let separator ←
      match first with
      | .undefined => pure ","
      | v => ofOption (h.display ps v)
    return .string (← ofOption (h.joinItems ps separator items))
  | .includes => return .bool (itemIndex? items first).isSome
  | .indexOf =>
    match itemIndex? items first with
    | some n => return .ofNat n
    | none => return .number (-1)

/-- What a function of the host did, other than its result, takes effect. -/
def World.after (w : World) (answer : HostAnswer) : World :=
  { w with
    heap := w.heap.changeAll answer.changes
    output := w.output ++ answer.printed
    memory := answer.memory }

/-- Takes up what a function of the host did. It takes effect also if the function fails; a fault
    without position gets that of the call. -/
def takeAnswer (answer : HostAnswer) (pos : Position) : Effect Value := do
  modify (·.after answer)
  match answer.result with
  | .ok v => ofHeap v.toValue
  | .error halt => throw (halt.orAt pos)

/-- A function of the host. -/
def callHost (ps : Promises) (name : String) (args : List Value) (pos : Position) :
    Effect Value := do
  let w ← get
  match w.host.get? name with
  | none => return .undefined
  | some f => takeAnswer (f ⟨args, w.heap, ps, w.memory⟩) pos

/-! ## Functions of the script -/

/-- A function of the script gets its arguments: it is entered, or a task is started for it. -/
def callClosure (c : Closure) (args : List Value) (receiver : Value) (stack : List Frame) : Move :=
  if c.isAsync then
    let name := c.name.getD ""
    .spawn (if name.isEmpty then "anonymous" else name) (.enter c args receiver) stack
  else .go (.enter c args receiver) (.call :: stack)

/-- A function gets its arguments. -/
def callFunction (ps : Promises) (r : Ref .function) (args : List Value) (receiver : Value)
    (pos : Position) (stack : List Frame) : Effect Move := do
  let h ← heap
  match h.function r with
  | .print => return .ret (← printValues ps args) stack
  | .arrayMethod m items => return .ret (← callArrayMethod ps m items args) stack
  | .host name => return .ret (← callHost ps name args pos) stack
  | .closure c => return callClosure c args receiver stack
  | .bound m target =>
    match h.function m with
    | .closure c => return callClosure c args (.inst target) stack
    | _ => return .ret .undefined stack

/-- Any value gets arguments from outside. -/
def invoke (ps : Promises) (callee : Value) (args : List Value) (pos : Position)
    (stack : List Frame) : Effect Move := do
  match callee with
  | .function r => callFunction ps r args .undefined pos stack
  | v => fault (.valueNotCallable v.type) (some pos)

/-- The class above the one whose method a function is, as `super` finds it. -/
def superOf (h : Heap) (home : Option (Ref .cls)) : Value :=
  match home.bind fun r => (h.cls r).superclass with
  | some r => .cls r
  | none => .null

/-- Binds `this` and `super` in a scope. -/
def bindReceiver (scope : Ref .scope) (receiver above : Value) : Effect Unit := do
  define scope "this" receiver false none
  define scope "super" above false none

/-- Enters a function: its own scope, `this`, and then the parameters. -/
def enterFunction (c : Closure) (args : List Value) (receiver : Value) (stack : List Frame) :
    Effect Move := do
  let scope ← newScope c.scope true
  if !c.isArrow then bindReceiver scope receiver (superOf (← heap) c.home)
  return .go (.bind c.params args c.body scope) stack

/-- Binds the next parameter, or runs the body. A default stands in for `undefined` and may use the
    parameters before it. -/
def bindParams (params : List Param) (args : List Value) (body : FunctionBody) (scope : Ref .scope)
    (stack : List Frame) : Effect Move := do
  match params with
  | [] =>
    match body with
    | .block b => return .go (.statements b.statements scope) stack
    | .expr e => return .go (.eval e scope) stack
  | p :: rest =>
    match args.headD .undefined, p.default with
    | .undefined, some e =>
      return .go (.eval e scope) (.parameter p.name rest (args.drop 1) body scope :: stack)
    | v, _ =>
      define scope p.name v false none
      return .go (.bind rest (args.drop 1) body scope) stack

/-! ## Construction -/

/-- The fields of an instance of a class, those of the topmost class first. -/
def pendingFields (h : Heap) (r : Ref .cls) : List PendingField :=
  (h.classChain r).reverse.flatMap fun c => (h.cls c).fields.map (⟨c, ·⟩)

/-- Makes an instance of a class and starts to initialise it. -/
def construct (r : Ref .cls) (args : List Value) (stack : List Frame) : Effect Move := do
  let target ← inHeap (·.newInstance ⟨r, .empty⟩)
  return .go (.initialise ⟨target, r, pendingFields (← heap) r, args⟩) stack

/-- The constructor of a class or of the nearest class above that has one. -/
def constructorOf? (h : Heap) (r : Ref .cls) : Option Closure := do
  match h.function (← h.method? r "constructor") with
  | .closure c => some c
  | _ => none

/-- The scope in which the value of a field is computed. -/
def fieldScope (f : PendingField) (target : Ref .inst) : Effect (Ref .scope) := do
  let h ← heap
  let scope ← newScope (h.cls f.cls).scope true
  bindReceiver scope (.inst target) (superOf h (some f.cls))
  return scope

/-- Initialises the next field, or runs the constructor. -/
def initialise (k : Construction) (stack : List Frame) : Effect Move := do
  match k.fields with
  | [] =>
    match constructorOf? (← heap) k.cls with
    | some c =>
      return .go (.enter c k.args (.inst k.target)) (.call :: .constructed k.target :: stack)
    | none => return .ret (.inst k.target) stack
  | f :: rest =>
    let k := { k with fields := rest }
    match f.field.value with
    | none =>
      modifyHeap (·.setField k.target f.field.name .undefined)
      return .go (.initialise k) stack
    | some e =>
      let scope ← fieldScope f k.target
      return .go (.eval e scope) (.fieldValue f.field.name k :: stack)

/-- Runs the nearest constructor of a class on an instance that is under construction below. -/
def callSuper (r : Ref .cls) (receiver : Value) (args : List Value) (stack : List Frame) :
    Effect Move := do
  match constructorOf? (← heap) r with
  | some c => return .go (.enter c args receiver) (.call :: .superDone :: stack)
  | none => return .ret .undefined stack

/-! ## Collected values -/

/-- Collected values are put to their purpose. -/
def applyPurpose (ps : Promises) (p : Purpose) (args : List Value) (stack : List Frame) :
    Effect Move := do
  match p with
  | .call callee receiver what pos =>
    match callee with
    | .function r => callFunction ps r args receiver pos stack
    | .cls r => fault (.classCall ((← heap).cls r).name) (some pos)
    | v => fault (.notCallable what v.type) (some pos)
  | .construct cls what pos =>
    match cls with
    | .cls r => construct r args stack
    | _ => fault (.notConstructor what) (some pos)
  | .superCall cls receiver => callSuper cls receiver args stack
  | .array => return .ret (.array (← inHeap (·.newArray args.toArray))) stack

/-- Collects the values of expressions for a purpose. -/
def collectArgs (ps : Promises) (p : Purpose) (done : List Value) (rest : List Expr)
    (scope : Ref .scope) (stack : List Frame) : Effect Move := do
  match rest with
  | [] => applyPurpose ps p done.reverse stack
  | e :: rest => return .go (.eval e scope) (.collect p done rest scope :: stack)

end CoScript
