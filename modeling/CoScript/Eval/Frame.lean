import CoScript.Eval.Stmt

/-!
# What frames do

Results:
* `Frame.receive`: a frame gets a value.
* `Frame.unwind`: a statement below a frame is left before its end.
-/

namespace CoScript

open Effect

/-- The value of a binary operator once its left side is known: `&&` and `||` may not need the
    right side. -/
def afterLeft (op : BinaryOp) (left : Value) (right : Expr) (pos : Position) (scope : Ref .scope)
    (stack : List Frame) : Move :=
  match op with
  | .and => if left.isTruthy then .go (.eval right scope) stack else .ret left stack
  | .or => if left.isTruthy then .ret left stack else .go (.eval right scope) stack
  | op => .go (.eval right scope) (.binaryApply op left pos :: stack)

/-- A branch is chosen. -/
def chooseBranch (condition : Value) (thenBranch : Stmt) (elseBranch : Option Stmt)
    (scope : Ref .scope) (stack : List Frame) : Move :=
  if condition.isTruthy then .go (.exec thenBranch scope) stack
  else
    match elseBranch with
    | some s => .go (.exec s scope) stack
    | none => .done stack

/-- A binary operator gets both sides. -/
def applyBinary (ps : Promises) (op : BinaryOp) (left right : Value) (pos : Position) :
    Effect Value := do
  let h ← heap
  (left.binary h ps op right pos : Except Halt Value)

/-- A frame gets a value. -/
def Frame.receive (ps : Promises) (f : Frame) (v : Value) (stack : List Frame) : Effect Move := do
  match f with
  | .sequence rest scope => return nextStatement rest scope stack
  | .discard => return .done stack
  | .declare kind name pos scope =>
    modifyHeap (·.nameFunction v name)
    CoScript.declare kind name (some v) scope (some pos)
    return .done stack
  | .branch thenBranch elseBranch scope => return chooseBranch v thenBranch elseBranch scope stack
  | .forStart loop scope => startFor loop scope stack
  | .forTest loop scope =>
    if v.isTruthy then return .go (.exec loop.body scope) (.forBody loop scope :: stack)
    else return .done stack
  | .forBody loop scope => nextFor loop scope stack
  | .forUpdate loop scope => return testFor loop scope stack
  | .whileTest condition body scope =>
    if v.isTruthy then
      return .go (.exec body scope) (.whileBody condition body scope :: stack)
    else return .done stack
  | .whileBody condition body scope =>
    return .go (.eval condition scope) (.whileTest condition body scope :: stack)
  | .itemsOf loop pos =>
    match Items.of? v with
    | some items => nextItem loop items stack
    | none => fault (.notIterable v.type) (some pos)
  | .itemBody loop items => nextItem loop items stack
  | .switchOn cases scope =>
    let own ← newScope scope false
    return testCases v cases cases own stack
  | .switchTest value todo all scope =>
    if value.strictEquals v then return runCases todo scope stack
    else return testCases value (todo.drop 1) all scope stack
  | .switchBody rest scope => return runCases rest scope stack
  | .giveBack => return .go (.leave (.returned v)) stack
  | .throwIt pos => return .go (.leave (.thrown v (some pos))) stack
  | .tryBody _ _ finalizer scope => finalize none finalizer scope stack
  | .handlerBody finalizer scope => finalize none finalizer scope stack
  | .finalizerBody pending => return resumePending pending stack
  | .binaryRight op right pos scope => return afterLeft op v right pos scope stack
  | .binaryApply op left pos => return .ret (← applyBinary ps op left v pos) stack
  | .unaryApply op pos => return .ret (← (v.unary op pos : Except Halt Value)) stack
  | .choose thenValue elseValue scope =>
    return .go (.eval (if v.isTruthy then thenValue else elseValue) scope) stack
  | .memberOf attr pos => return .ret (← getMember v attr pos) stack
  | .indexKey key pos scope => return .go (.eval key scope) (.indexApply v pos :: stack)
  | .indexApply object pos => return .ret (← getIndex ps object v pos) stack
  | .placeMember attr pos use scope => usePlace ps (.member v attr pos) use scope stack
  | .placeKey key pos use scope =>
    return .go (.eval key scope) (.placeElement v pos use scope :: stack)
  | .placeElement object pos use scope => usePlace ps (.element object v pos) use scope stack
  | .write place =>
    writePlace ps v place
    return .ret v stack
  | .combine place op old pos =>
    let new ← applyBinary ps op old v pos
    writePlace ps new place
    return .ret new stack
  | .property done key rest scope =>
    modifyHeap (·.nameFunction v key)
    evalProperties (done.set key v) rest scope stack
  | .awaiting => return .await v stack
  | .calleeOf args what pos scope =>
    collectArgs ps (.call v .undefined what pos) [] args scope stack
  | .methodOf attr attrPos args what pos scope =>
    let callee ← getMember v attr attrPos
    collectArgs ps (.call callee v what pos) [] args scope stack
  | .classOf args what pos scope => collectArgs ps (.construct v what pos) [] args scope stack
  | .collect purpose done rest scope => collectArgs ps purpose (v :: done) rest scope stack
  | .call => return .ret v stack
  | .parameter name rest args body scope =>
    define scope name v false none
    return .go (.bind rest args body scope) stack
  | .fieldValue name k =>
    modifyHeap (·.setField k.target name v)
    return .go (.initialise k) stack
  | .constructed target => return .ret (.inst target) stack
  | .superDone => return .done stack

/-- Runs the handler of a statement with the thrown value bound in a scope of its own. -/
def handle (name : Option String) (handler : Block) (v : Value) (finalizer : Option Block)
    (scope : Ref .scope) (stack : List Frame) : Effect Move := do
  let own ← newScope scope false
  if let some n := name then define own n v false none
  return .go (.statements handler.statements own) (.handlerBody finalizer scope :: stack)

/-- A statement below a frame is left before its end. Loops and switches end a `break`, loops a
    `continue`, calls a `return`, and handlers a throw; finalizers run on the way. -/
def Frame.unwind (f : Frame) (how : Abrupt) (stack : List Frame) : Effect Move := do
  match f, how with
  | .forBody .., .breakOut | .whileBody .., .breakOut | .itemBody .., .breakOut
  | .switchBody .., .breakOut => return .done stack
  | .forBody loop scope, .continueOn => nextFor loop scope stack
  | .whileBody condition body scope, .continueOn =>
    return .go (.eval condition scope) (.whileTest condition body scope :: stack)
  | .itemBody loop items, .continueOn => nextItem loop items stack
  | .call, .returned v => return .ret v stack
  | .tryBody name (some handler) finalizer scope, .thrown v _ =>
    handle name handler v finalizer scope stack
  | .tryBody _ _ finalizer scope, how => finalize (some how) finalizer scope stack
  | .handlerBody finalizer scope, how => finalize (some how) finalizer scope stack
  | _, how => return .go (.leave how) stack

end CoScript
