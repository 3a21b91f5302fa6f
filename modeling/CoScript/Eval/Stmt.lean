import CoScript.Eval.Expr

/-!
# Starting statements

Results:
* `execStmt`: the first step of a statement.
* `runStatements`: functions that statements declare, and then the statements in order.
* `runProgram`: imports, and then the statements of a program.
-/

namespace CoScript

open Effect

/-- A statement comes to its end. -/
def Move.done (stack : List Frame) : Move :=
  .ret .undefined stack

/-! ## Declarations -/

/-- Declares a variable; without a value it is `undefined`. -/
def declare (kind : DeclKind) (name : String) (value : Option Value) (scope : Ref .scope)
    (pos : Option Position) : Effect Unit :=
  match kind with
  | .function => declareVar scope name value
  | .block => define scope name (value.getD .undefined) false pos
  | .constant => define scope name (value.getD .undefined) true pos

/-- Starts the declaration of a variable. -/
def execVarDecl (d : VarDecl) (scope : Ref .scope) (stack : List Frame) : Effect Move := do
  match d.value with
  | some e => return .go (.eval e scope) (.declare d.kind d.name d.pos scope :: stack)
  | none =>
    declare d.kind d.name none scope (some d.pos)
    return .done stack

/-- Makes the functions that statements declare. -/
def hoistFunctions (scope : Ref .scope) : List Stmt → Effect Unit
  | [] => pure ()
  | .functionDecl d :: rest => do
    let f ← newFunction
      (.closure ⟨some d.name, d.params, .block d.body, scope, d.isAsync, false, none⟩)
    modifyHeap fun h => { h with scopes := h.scopes.hoist scope d.name f }
    hoistFunctions scope rest
  | _ :: rest => hoistFunctions scope rest

/-- Goes on with statements in order. -/
def nextStatement (ss : List Stmt) (scope : Ref .scope) (stack : List Frame) : Move :=
  match ss with
  | [] => .done stack
  | s :: rest => .go (.exec s scope) (.sequence rest scope :: stack)

/-- Makes the functions that statements declare, and then runs them in order. -/
def runStatements (ss : List Stmt) (scope : Ref .scope) (stack : List Frame) : Effect Move := do
  hoistFunctions scope ss
  return nextStatement ss scope stack

/-- Runs a block in a scope of its own. -/
def runBlock (b : Block) (scope : Ref .scope) (stack : List Frame) : Effect Move := do
  return .go (.statements b.statements (← newScope scope false)) stack

/-- Makes the methods of a class. -/
def newMethods (home : Ref .cls) (scope : Ref .scope) :
    List FunctionDecl → Ordered (Ref .function) → Effect (Ordered (Ref .function))
  | [], done => pure done
  | d :: rest, done => do
    let r ← inHeap (·.newFunction
      (.closure ⟨some d.name, d.params, .block d.body, scope, d.isAsync, false, some home⟩))
    newMethods home scope rest (done.set d.name r)

/-- The class that a declaration extends. -/
def superclassOf (d : ClassDecl) (scope : Ref .scope) : Effect (Option (Ref .cls)) := do
  match d.superclass with
  | none => return none
  | some name =>
    match ← lookup scope name (some d.pos) with
    | .cls r => return some r
    | v => fault (.badSuperclass d.name v.type) (some d.pos)

/-- Logs the members of its interfaces that a class lacks. -/
def checkInterfaces (d : ClassDecl) (r : Ref .cls) : Effect Unit := do
  let h ← heap
  for i in d.interfaces do
    for m in ((← get).interfaces.get? i).getD [] do
      if (h.method? r m).isNone && !(d.fields.any (·.name == m)) then
        record .debug ("class " ++ d.name ++ " does not implement " ++ i ++ "." ++ m)

/-- Declares a class. -/
def declareClass (d : ClassDecl) (scope : Ref .scope) : Effect Unit := do
  let above ← superclassOf d scope
  let r ← inHeap (·.newClass ⟨d.name, above, d.interfaces, d.fields, .empty, scope⟩)
  let methods ← newMethods r scope d.methods .empty
  modifyHeap fun h =>
    { h with classes := h.classes.modify r.index fun c => { c with methods } }
  checkInterfaces d r
  define scope d.name (.cls r) false (some d.pos)

/-- Declares an interface, with the members of those that it extends and that are declared. -/
def declareInterface (d : InterfaceDecl) : Effect Unit :=
  modify fun w =>
    let inherited := d.bases.flatMap fun b => (w.interfaces.get? b).getD []
    { w with interfaces := w.interfaces.set d.name (d.members ++ inherited) }

/-! ## Imports -/

/-- Logs the files that were read for a module. -/
def recordLoaded (w : World) (loaded : List Loaded) : World :=
  loaded.foldl (fun w l => w.record .debug .modules
    ("loaded module " ++ Text.visible l.specifier ++ " from " ++ l.path)) w

/-- What a module exports, if it is known. -/
def resolveModule (d : ImportDecl) : Effect (Option Exports) := do
  match (← get).resolver with
  | none => return none
  | some id =>
    let answer ← modifyGet fun w =>
      let (answer, loaded, resolvers) := w.resolvers.resolve id d.specifier
      (answer, recordLoaded { w with resolvers } loaded)
    match answer with
    | .ok exports => return exports
    | .error cause => fault cause none

/-- The exports that an import takes from; none of them if the module is unknown and that is
    allowed. -/
def importedExports (d : ImportDecl) : Effect Exports := do
  match ← resolveModule d with
  | some exports =>
    record .debug ("resolved module " ++ Text.visible d.specifier ++ " ("
      ++ toString exports.size ++ " exports)")
    return exports
  | none =>
    if (← get).lenient then
      record .warning ("module " ++ Text.visible d.specifier ++ " not found, binding undefined")
      return .empty
    else fault (.moduleMissing d.specifier) (some d.pos)

/-- The value that a name of an import stands for. -/
def importedValue (d : ImportDecl) (exports : Exports) (b : ImportBinding) : Effect Value := do
  if b.name = "*" then ofHeap (HostValue.object exports.entries).toValue
  else
    match exports.get? b.name with
    | some v => ofHeap v.toValue
    | none =>
      if (← get).lenient then return .undefined
      else fault (.exportMissing d.specifier b.name) (some d.pos)

/-- Binds the names of an import as constants of the program. -/
def bindImport (d : ImportDecl) : Effect Unit := do
  let exports ← importedExports d
  for b in d.bindings do
    let v ← importedValue d exports b
    define (← get).globals b.localName v true (some d.pos)

/-- Binds the next import of a program, or runs its statements. -/
def runProgram (imports : List ImportDecl) (ss : List Stmt) (stack : List Frame) : Effect Move := do
  match imports with
  | d :: rest =>
    bindImport d
    return .go (.program rest ss) stack
  | [] => return .go (.statements ss (← get).globals) stack

/-- The imports among statements. -/
def importsOf : List Stmt → List ImportDecl
  | [] => []
  | .importDecl d :: rest => d :: importsOf rest
  | _ :: rest => importsOf rest

/-! ## Loops -/

/-- Tests the condition of a loop, or runs its body if there is none. -/
def testFor (loop : ForLoop) (scope : Ref .scope) (stack : List Frame) : Move :=
  match loop.condition with
  | some e => .go (.eval e scope) (.forTest loop scope :: stack)
  | none => .go (.exec loop.body scope) (.forBody loop scope :: stack)

/-- Starts the first round of a loop, in a copy of the scope of its start. -/
def startFor (loop : ForLoop) (scope : Ref .scope) (stack : List Frame) : Effect Move := do
  return testFor loop (← inHeap (·.copyScope scope)) stack

/-- Goes to the next round of a loop: a copy of the scope, the update, the test. -/
def nextFor (loop : ForLoop) (scope : Ref .scope) (stack : List Frame) : Effect Move := do
  let scope ← inHeap (·.copyScope scope)
  match loop.update with
  | some e => return .go (.eval e scope) (.forUpdate loop scope :: stack)
  | none => return testFor loop scope stack

/-- Starts a loop. -/
def execFor (init : Option ForInit) (loop : ForLoop) (scope : Ref .scope) (stack : List Frame) :
    Effect Move := do
  let own ← newScope scope false
  match init with
  | none => startFor loop own stack
  | some (.declare d) => return .go (.exec (.varDecl d) own) (.forStart loop own :: stack)
  | some (.expr pos e) => return .go (.exec (.expr pos e) own) (.forStart loop own :: stack)

/-- The next of the items that a loop has still to visit. -/
def Items.next? (h : Heap) : Items → Option (Value × Items)
  | .array r n => ((h.array r)[n]?).map (·, .array r (n + 1))
  | .chars [] => none
  | .chars (c :: rest) => some (.string (String.ofList [c]), .chars rest)

/-- The items of a value. -/
def Items.of? : Value → Option Items
  | .array r => some (.array r 0)
  | .string s => some (.chars s.toList)
  | _ => none

/-- Goes to the next item of a loop, in a scope of its own. -/
def nextItem (loop : ItemLoop) (items : Items) (stack : List Frame) : Effect Move := do
  match items.next? (← heap) with
  | none => return .done stack
  | some (v, items) =>
    let own ← newScope loop.scope false
    declare loop.kind loop.name (some v) own none
    return .go (.exec loop.body own) (.itemBody loop items :: stack)

/-! ## Switches -/

/-- Runs clauses one after the other. -/
def runCases (cases : List SwitchCase) (scope : Ref .scope) (stack : List Frame) : Move :=
  match cases with
  | [] => .done stack
  | c :: rest => .go (.statements c.body scope) (.switchBody rest scope :: stack)

/-- Tests the next clause that has a test; when none is left, runs from the default clause on. -/
def testCases (value : Value) (todo all : List SwitchCase) (scope : Ref .scope)
    (stack : List Frame) : Move :=
  match todo with
  | [] => runCases (all.dropWhile (·.test.isSome)) scope stack
  | c :: rest =>
    match c.test with
    | none => testCases value rest all scope stack
    | some e => .go (.eval e scope) (.switchTest value (c :: rest) all scope :: stack)

/-! ## Finalizers -/

/-- Takes up a statement where a finalizer interrupted it. -/
def resumePending (pending : Option Abrupt) (stack : List Frame) : Move :=
  match pending with
  | none => .done stack
  | some how => .go (.leave how) stack

/-- Runs a finalizer, if there is one, before a statement is left or comes to its end. -/
def finalize (pending : Option Abrupt) (finalizer : Option Block) (scope : Ref .scope)
    (stack : List Frame) : Effect Move := do
  match finalizer with
  | none => return resumePending pending stack
  | some b => runBlock b scope (.finalizerBody pending :: stack)

/-! ## All statements -/

/-- The first step of a statement. -/
def execStmt (s : Stmt) (scope : Ref .scope) (stack : List Frame) : Effect Move := do
  match s with
  | .expr _ value => return .go (.eval value scope) (.discard :: stack)
  | .varDecl d => execVarDecl d scope stack
  | .block b => runBlock b scope stack
  | .branch _ condition thenBranch elseBranch =>
    return .go (.eval condition scope) (.branch thenBranch elseBranch scope :: stack)
  | .forLoop _ init condition update body =>
    execFor init ⟨condition, update, body⟩ scope stack
  | .forOf _ kind name iterable body =>
    return .go (.eval iterable scope) (.itemsOf ⟨kind, name, body, scope⟩ iterable.pos :: stack)
  | .whileLoop _ condition body =>
    return .go (.eval condition scope) (.whileTest condition body scope :: stack)
  | .switchStmt _ discriminant cases =>
    return .go (.eval discriminant scope) (.switchOn cases scope :: stack)
  | .returnStmt _ none => return .go (.leave (.returned .undefined)) stack
  | .returnStmt _ (some e) => return .go (.eval e scope) (.giveBack :: stack)
  | .breakStmt _ => return .go (.leave .breakOut) stack
  | .continueStmt _ => return .go (.leave .continueOn) stack
  | .throwStmt pos e => return .go (.eval e scope) (.throwIt pos :: stack)
  | .tryStmt _ body name handler finalizer =>
    runBlock body scope (.tryBody name handler finalizer scope :: stack)
  | .classDecl d =>
    declareClass d scope
    return .done stack
  | .interfaceDecl d =>
    declareInterface d
    return .done stack
  | .functionDecl _ | .typeAlias .. | .importDecl _ => return .done stack

end CoScript
