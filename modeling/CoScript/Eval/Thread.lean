import CoScript.Store.Cell
import CoScript.Tree.Basic

/-!
# Threads

A thread is one task's share of the evaluation: what it does now, and a stack of frames that say
what becomes of the result. A thread that waits is a value like any other, so a task can be put
aside at every point of its program.

Results:
* `Control`, `Frame`: what a thread does and what it does next.
* `Thread.depth`: how deep its calls nest.
-/

namespace CoScript

/-- How a statement is left other than at its end. -/
inductive Abrupt where
  | breakOut
  | continueOn
  | returned (value : Value)
  | thrown (value : Value) (pos : Option Position)
  deriving Repr

/-- Where an assignment writes, once the parts of its target are evaluated. -/
inductive Place where
  | variable (name : String) (scope : Ref .scope) (pos : Position)
  | member (object : Value) (attr : String) (pos : Position)
  | element (object key : Value) (pos : Position)
  deriving Repr

/-- What is done to a place. -/
inductive PlaceUse where
  | assign (op : AssignOp) (value : Expr) (pos : Position)
  | update (op : UpdateOp) (before : Bool) (pos : Position)

/-- What a list of values is collected for. -/
inductive Purpose where
  /-- a call; `what` describes the callee in the source -/
  | call (callee receiver : Value) (what : String) (pos : Position)
  | construct (cls : Value) (what : String) (pos : Position)
  | superCall (cls : Ref .cls) (receiver : Value)
  | array
  deriving Repr

/-- A `for` loop after its start. -/
structure ForLoop where
  condition : Option Expr
  update : Option Expr
  body : Stmt

/-- A loop over items, and the scope around it. -/
structure ItemLoop where
  kind : DeclKind
  name : String
  body : Stmt
  scope : Ref .scope

/-- The items that a loop has still to visit. An array is read anew for each of them. -/
inductive Items where
  | array (ref : Ref .array) (next : Nat)
  | chars (rest : List Char)
  deriving Repr

/-- A field of an instance under construction, with the class that declares it. -/
structure PendingField where
  cls : Ref .cls
  field : FieldDecl

/-- An instance under construction: what is still to be initialised, and the arguments for the
    constructor. -/
structure Construction where
  target : Ref .inst
  cls : Ref .cls
  fields : List PendingField
  args : List Value

/-- What a thread does. -/
inductive Control where
  /-- binds the imports of a program and then runs it -/
  | program (imports : List ImportDecl) (statements : List Stmt)
  /-- makes the functions that statements declare and then runs them -/
  | statements (statements : List Stmt) (scope : Ref .scope)
  | exec (statement : Stmt) (scope : Ref .scope)
  | eval (expr : Expr) (scope : Ref .scope)
  /-- calls a value from outside -/
  | invoke (callee : Value) (args : List Value) (pos : Position)
  /-- enters the body of a function -/
  | enter (function : Closure) (args : List Value) (receiver : Value)
  /-- binds parameters and then runs a body -/
  | bind (params : List Param) (args : List Value) (body : FunctionBody) (scope : Ref .scope)
  | initialise (construction : Construction)
  /-- hands a value to the frame on top; statements hand on `undefined` -/
  | ret (value : Value)
  | leave (how : Abrupt)
  | fail (fault : Fault)

/-- What becomes of the result of what a thread does. -/
inductive Frame where
  /-- goes on with the statements that follow -/
  | sequence (rest : List Stmt) (scope : Ref .scope)
  | discard
  | declare (kind : DeclKind) (name : String) (pos : Position) (scope : Ref .scope)
  | branch (thenBranch : Stmt) (elseBranch : Option Stmt) (scope : Ref .scope)
  | forStart (loop : ForLoop) (scope : Ref .scope)
  | forTest (loop : ForLoop) (scope : Ref .scope)
  | forBody (loop : ForLoop) (scope : Ref .scope)
  | forUpdate (loop : ForLoop) (scope : Ref .scope)
  | whileTest (condition : Expr) (body : Stmt) (scope : Ref .scope)
  | whileBody (condition : Expr) (body : Stmt) (scope : Ref .scope)
  | itemsOf (loop : ItemLoop) (pos : Position)
  | itemBody (loop : ItemLoop) (items : Items)
  | switchOn (cases : List SwitchCase) (scope : Ref .scope)
  /-- compares the value of the first of the clauses `todo` -/
  | switchTest (value : Value) (todo all : List SwitchCase) (scope : Ref .scope)
  | switchBody (rest : List SwitchCase) (scope : Ref .scope)
  | giveBack
  | throwIt (pos : Position)
  | tryBody (name : Option String) (handler finalizer : Option Block) (scope : Ref .scope)
  | handlerBody (finalizer : Option Block) (scope : Ref .scope)
  /-- takes up what a finalizer interrupted -/
  | finalizerBody (pending : Option Abrupt)
  | binaryRight (op : BinaryOp) (right : Expr) (pos : Position) (scope : Ref .scope)
  | binaryApply (op : BinaryOp) (left : Value) (pos : Position)
  | unaryApply (op : UnaryOp) (pos : Position)
  | choose (thenValue elseValue : Expr) (scope : Ref .scope)
  | memberOf (attr : String) (pos : Position)
  | indexKey (key : Expr) (pos : Position) (scope : Ref .scope)
  | indexApply (object : Value) (pos : Position)
  | placeMember (attr : String) (pos : Position) (use : PlaceUse) (scope : Ref .scope)
  | placeKey (key : Expr) (pos : Position) (use : PlaceUse) (scope : Ref .scope)
  | placeElement (object : Value) (pos : Position) (use : PlaceUse) (scope : Ref .scope)
  | write (place : Place)
  | combine (place : Place) (op : BinaryOp) (old : Value) (pos : Position)
  | property (done : Ordered Value) (key : String) (rest : List Property) (scope : Ref .scope)
  | awaiting
  | calleeOf (args : List Expr) (what : String) (pos : Position) (scope : Ref .scope)
  | methodOf (attr : String) (attrPos : Position) (args : List Expr) (what : String)
      (pos : Position) (scope : Ref .scope)
  | classOf (args : List Expr) (what : String) (pos : Position) (scope : Ref .scope)
  /-- collects values; `done` holds the last one first -/
  | collect (purpose : Purpose) (done : List Value) (rest : List Expr) (scope : Ref .scope)
  /-- the end of a call -/
  | call
  | parameter (name : String) (rest : List Param) (args : List Value) (body : FunctionBody)
      (scope : Ref .scope)
  | fieldValue (name : String) (construction : Construction)
  /-- gives the instance, whatever the constructor gave -/
  | constructed (target : Ref .inst)
  /-- gives `undefined`, whatever the constructor above gave -/
  | superDone

/-- Whether a frame belongs to a call or to a field under construction. -/
def Frame.nests : Frame → Bool
  | .call | .fieldValue .. => true
  | _ => false

/-- One task's share of the evaluation. -/
structure Thread where
  control : Control
  stack : List Frame
  /-- how deep the calls nested where the thread was started, if it has not waited since -/
  base : Nat

/-- How deep the calls of a thread nest. -/
def Thread.depth (t : Thread) : Nat :=
  t.base + t.stack.countP Frame.nests

/-- What a thread does in one step. -/
inductive Move where
  | go (control : Control) (stack : List Frame)
  | await (value : Value) (stack : List Frame)
  /-- starts a task with its own thread and gets its promise -/
  | spawn (name : String) (child : Control) (stack : List Frame)
  /-- the thread ends with a value -/
  | finish (value : Value)
  /-- the thread ends with a throw that nothing caught -/
  | throw (value : Value) (pos : Option Position)

/-- Hands a value to the frame on top. -/
def Move.ret (v : Value) (stack : List Frame) : Move :=
  .go (.ret v) stack

end CoScript
