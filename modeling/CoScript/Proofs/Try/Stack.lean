import CoScript.Proofs.Eval.Keeps

/-!
# What a step leaves alone

A step works on the frame on top and pushes others. Whatever stands below the frame on top is still
there afterwards, and the thread does not end: it can only end once its stack is empty.

Results:
* `Move.Above`: a move that leaves a stack as it is and stays above it.
* `above_receive`, `above_unwind`: what a frame does with a value or with a jump.
* `Thread.above_step`: one step of a thread.
-/

namespace CoScript

open Effect

/-- A move that stays above a stack: the thread goes on, and the stack is still below. -/
def Move.Above (below : List Frame) : Move → Prop
  | .go _ stack | .await _ stack | .spawn _ _ stack => below <:+ stack
  | .finish _ | .throw .. => False

/-- A computation of a move that stays above a stack. -/
abbrev Effect.Above (below : List Frame) (x : Effect Move) : Prop :=
  x.Keeps (fun _ => True) (Move.Above below)

variable {below stack : List Frame}

theorem above_push {f : Frame} (hs : below <:+ stack) : below <:+ f :: stack :=
  hs.trans (List.suffix_cons f stack)

theorem above_go {control : Control} (hs : below <:+ stack) :
    (Pure.pure (.go control stack) : Effect Move).Above below :=
  .pure hs

theorem above_bind {α : Type} {x : Effect α} {f : α → Effect Move}
    (hf : ∀ a, (f a).Above below) : (x >>= f).Above below :=
  .bind .trivially fun a _ => hf a

/-! ## Calls -/

section Calls

variable {ps : Promises} {args : List Value} {scope : Ref .scope}

theorem above_callClosure {c : Closure} {receiver : Value} (hs : below <:+ stack) :
    (callClosure c args receiver stack).Above below := by
  unfold callClosure
  split
  · exact hs
  · exact above_push hs

theorem above_callFunction {r : Ref .function} {receiver : Value} {pos : Position}
    (hs : below <:+ stack) : (callFunction ps r args receiver pos stack).Above below := by
  refine above_bind fun h => ?_
  split
  · exact above_bind fun _ => above_go hs
  · exact above_bind fun _ => above_go hs
  · exact above_bind fun _ => above_go hs
  · exact .pure (above_callClosure hs)
  · split
    · exact .pure (above_callClosure hs)
    · exact above_go hs

theorem above_invoke {callee : Value} {pos : Position} (hs : below <:+ stack) :
    (invoke ps callee args pos stack).Above below := by
  unfold invoke
  split
  · exact above_callFunction hs
  · exact .fault

theorem above_enterFunction {c : Closure} {receiver : Value} (hs : below <:+ stack) :
    (enterFunction c args receiver stack).Above below := by
  refine above_bind fun scope => ?_
  dsimp only
  split
  · exact above_bind fun _ => above_bind fun _ => above_go hs
  · exact above_go hs

theorem above_bindParams {params : List Param} {body : FunctionBody} (hs : below <:+ stack) :
    (bindParams params args body scope stack).Above below := by
  unfold bindParams
  split
  · split
    · exact above_go hs
    · exact above_go hs
  · split
    · exact above_go (above_push hs)
    · exact above_bind fun _ => above_go hs

theorem above_construct {r : Ref .cls} (hs : below <:+ stack) :
    (construct r args stack).Above below :=
  above_bind fun _ => above_bind fun _ => above_go hs

theorem above_initialise {k : Construction} (hs : below <:+ stack) :
    (initialise k stack).Above below := by
  unfold initialise
  split
  · refine above_bind fun h => ?_
    split
    · exact above_go (above_push (above_push hs))
    · exact above_go hs
  · dsimp only
    split
    · exact above_bind fun _ => above_go hs
    · exact above_bind fun _ => above_go (above_push hs)

theorem above_callSuper {r : Ref .cls} {receiver : Value} (hs : below <:+ stack) :
    (callSuper r receiver args stack).Above below := by
  refine above_bind fun h => ?_
  split
  · exact above_go (above_push (above_push hs))
  · exact above_go hs

theorem above_applyPurpose {p : Purpose} (hs : below <:+ stack) :
    (applyPurpose ps p args stack).Above below := by
  unfold applyPurpose
  split
  · split
    · exact above_callFunction hs
    · exact above_bind fun _ => .fault
    · exact .fault
  · split
    · exact above_construct hs
    · exact .fault
  · exact above_callSuper hs
  · exact above_bind fun _ => above_go hs

theorem above_collectArgs {p : Purpose} {done : List Value} {rest : List Expr}
    (hs : below <:+ stack) : (collectArgs ps p done rest scope stack).Above below := by
  unfold collectArgs
  split
  · exact above_applyPurpose hs
  · exact above_go (above_push hs)

end Calls

/-! ## Expressions -/

section Expressions

variable {ps : Promises} {scope : Ref .scope}

theorem above_usePlace {place : Place} {use : PlaceUse} (hs : below <:+ stack) :
    (usePlace ps place use scope stack).Above below := by
  unfold usePlace
  split
  · exact above_bind fun _ => above_go hs
  · split
    · exact above_go (above_push hs)
    · exact above_bind fun _ => above_go (above_push hs)

theorem above_evalTarget {target : Expr} {use : PlaceUse} (hs : below <:+ stack) :
    (evalTarget ps target use scope stack).Above below := by
  unfold evalTarget
  split
  · exact above_usePlace hs
  · exact above_go (above_push hs)
  · exact above_go (above_push hs)
  · exact .abort

theorem above_evalCall {callee : Expr} {args : List Expr} {pos : Position}
    (hs : below <:+ stack) : (evalCall callee args pos scope stack).Above below := by
  unfold evalCall
  dsimp only
  split
  · exact above_push hs
  · exact above_push hs

theorem above_evalSuperCall {args : List Expr} {pos : Position} (hs : below <:+ stack) :
    (evalSuperCall ps args pos scope stack).Above below := by
  refine above_bind fun v => ?_
  split
  · exact above_bind fun _ => above_collectArgs hs
  · exact .fault

theorem above_evalProperties {done : Ordered Value} {rest : List Property}
    (hs : below <:+ stack) : (evalProperties done rest scope stack).Above below := by
  unfold evalProperties
  split
  · exact above_bind fun _ => above_go hs
  · exact above_go (above_push hs)

theorem above_evalExpr {e : Expr} (hs : below <:+ stack) :
    (evalExpr ps e scope stack).Above below := by
  cases e with
  | literal => exact above_go hs
  | name => exact above_bind fun _ => above_go hs
  | this => exact above_bind fun _ => above_go hs
  | array => exact above_collectArgs hs
  | object => exact above_evalProperties hs
  | update => exact above_evalTarget hs
  | assign => exact above_evalTarget hs
  | call => exact .pure (above_evalCall hs)
  | superCall => exact above_evalSuperCall hs
  | arrow => exact above_bind fun _ => above_go hs
  | function => exact above_bind fun _ => above_go hs
  | _ => exact above_go (above_push hs)

end Expressions

/-! ## Statements -/

section Statements

variable {scope : Ref .scope}

theorem above_execVarDecl {d : VarDecl} (hs : below <:+ stack) :
    (execVarDecl d scope stack).Above below := by
  unfold execVarDecl
  split
  · exact above_go (above_push hs)
  · exact above_bind fun _ => above_go hs

theorem above_nextStatement {ss : List Stmt} (hs : below <:+ stack) :
    (nextStatement ss scope stack).Above below := by
  cases ss with
  | nil => exact hs
  | cons s rest => exact above_push hs

theorem above_runStatements {ss : List Stmt} (hs : below <:+ stack) :
    (runStatements ss scope stack).Above below :=
  above_bind fun _ => .pure (above_nextStatement hs)

theorem above_runBlock {b : Block} (hs : below <:+ stack) :
    (runBlock b scope stack).Above below :=
  above_bind fun _ => above_go hs

theorem above_runProgram {imports : List ImportDecl} {ss : List Stmt} (hs : below <:+ stack) :
    (runProgram imports ss stack).Above below := by
  unfold runProgram
  split
  · exact above_bind fun _ => above_go hs
  · exact above_bind fun _ => above_go hs

/-! ### Loops -/

theorem above_testFor {loop : ForLoop} (hs : below <:+ stack) :
    (testFor loop scope stack).Above below := by
  unfold testFor
  split
  · exact above_push hs
  · exact above_push hs

theorem above_startFor {loop : ForLoop} (hs : below <:+ stack) :
    (startFor loop scope stack).Above below :=
  above_bind fun _ => .pure (above_testFor hs)

theorem above_nextFor {loop : ForLoop} (hs : below <:+ stack) :
    (nextFor loop scope stack).Above below := by
  refine above_bind fun scope => ?_
  split
  · exact above_go (above_push hs)
  · exact .pure (above_testFor hs)

theorem above_execFor {init : Option ForInit} {loop : ForLoop} (hs : below <:+ stack) :
    (execFor init loop scope stack).Above below := by
  refine above_bind fun own => ?_
  split
  · exact above_startFor hs
  · exact above_go (above_push hs)
  · exact above_go (above_push hs)

theorem above_nextItem {loop : ItemLoop} {items : Items} (hs : below <:+ stack) :
    (nextItem loop items stack).Above below := by
  refine above_bind fun h => ?_
  split
  · exact above_go hs
  · exact above_bind fun _ => above_bind fun _ => above_go (above_push hs)

/-! ### Switches and finalizers -/

theorem above_runCases {cases : List SwitchCase} (hs : below <:+ stack) :
    (runCases cases scope stack).Above below := by
  cases cases with
  | nil => exact hs
  | cons c rest => exact above_push hs

theorem above_testCases {value : Value} {todo all : List SwitchCase} (hs : below <:+ stack) :
    (testCases value todo all scope stack).Above below := by
  induction todo with
  | nil => exact above_runCases hs
  | cons c rest ih =>
    unfold testCases
    split
    · exact ih
    · exact above_push hs

theorem above_resumePending {pending : Option Abrupt} (hs : below <:+ stack) :
    (resumePending pending stack).Above below := by
  cases pending with
  | none => exact hs
  | some how => exact hs

theorem above_finalize {pending : Option Abrupt} {finalizer : Option Block}
    (hs : below <:+ stack) : (finalize pending finalizer scope stack).Above below := by
  unfold finalize
  split
  · exact .pure (above_resumePending hs)
  · exact above_runBlock (above_push hs)

theorem above_execStmt {s : Stmt} (hs : below <:+ stack) :
    (execStmt s scope stack).Above below := by
  cases s with
  | varDecl => exact above_execVarDecl hs
  | block => exact above_runBlock hs
  | forLoop => exact above_execFor hs
  | returnStmt pos value =>
    cases value with
    | none => exact above_go hs
    | some e => exact above_go (above_push hs)
  | breakStmt => exact above_go hs
  | continueStmt => exact above_go hs
  | tryStmt => exact above_runBlock (above_push hs)
  | classDecl => exact above_bind fun _ => above_go hs
  | interfaceDecl => exact above_bind fun _ => above_go hs
  | functionDecl => exact above_go hs
  | typeAlias => exact above_go hs
  | importDecl => exact above_go hs
  | _ => exact above_go (above_push hs)

end Statements

/-! ## Frames -/

theorem above_receive {ps : Promises} {f : Frame} {v : Value} (hs : below <:+ stack) :
    (f.receive ps v stack).Above below := by
  cases f with
  | sequence => exact .pure (above_nextStatement hs)
  | declare => exact above_bind fun _ => above_bind fun _ => above_go hs
  | branch thenBranch elseBranch scope =>
    refine .pure ?_
    unfold chooseBranch
    split
    · exact hs
    · split
      · exact hs
      · exact hs
  | forStart => exact above_startFor hs
  | forTest =>
    unfold Frame.receive
    dsimp only
    split
    · exact above_go (above_push hs)
    · exact above_go hs
  | forBody => exact above_nextFor hs
  | forUpdate => exact .pure (above_testFor hs)
  | whileTest =>
    unfold Frame.receive
    dsimp only
    split
    · exact above_go (above_push hs)
    · exact above_go hs
  | itemsOf =>
    unfold Frame.receive
    dsimp only
    split
    · exact above_nextItem hs
    · exact .fault
  | itemBody => exact above_nextItem hs
  | switchOn => exact above_bind fun _ => .pure (above_testCases hs)
  | switchTest =>
    unfold Frame.receive
    dsimp only
    split
    · exact .pure (above_runCases hs)
    · exact .pure (above_testCases hs)
  | switchBody => exact .pure (above_runCases hs)
  | tryBody => exact above_finalize hs
  | handlerBody => exact above_finalize hs
  | finalizerBody => exact .pure (above_resumePending hs)
  | binaryRight op right pos scope =>
    refine .pure ?_
    unfold afterLeft
    split
    · split
      · exact hs
      · exact hs
    · split
      · exact hs
      · exact hs
    · exact above_push hs
  | binaryApply => exact above_bind fun _ => above_go hs
  | unaryApply => exact above_bind fun _ => above_go hs
  | memberOf => exact above_bind fun _ => above_go hs
  | indexApply => exact above_bind fun _ => above_go hs
  | placeMember => exact above_usePlace hs
  | placeElement => exact above_usePlace hs
  | write => exact above_bind fun _ => above_go hs
  | combine => exact above_bind fun _ => above_bind fun _ => above_go hs
  | property => exact above_bind fun _ => above_evalProperties hs
  | awaiting => exact .pure hs
  | calleeOf => exact above_collectArgs hs
  | methodOf => exact above_bind fun _ => above_collectArgs hs
  | classOf => exact above_collectArgs hs
  | collect => exact above_collectArgs hs
  | parameter => exact above_bind fun _ => above_go hs
  | fieldValue => exact above_bind fun _ => above_go hs
  | whileBody => exact above_go (above_push hs)
  | indexKey => exact above_go (above_push hs)
  | placeKey => exact above_go (above_push hs)
  | _ => exact above_go hs

theorem above_handle {name : Option String} {handler : Block} {v : Value}
    {finalizer : Option Block} {scope : Ref .scope} (hs : below <:+ stack) :
    (handle name handler v finalizer scope stack).Above below := by
  refine above_bind fun own => ?_
  split
  · exact above_bind fun _ => above_go (above_push hs)
  · exact above_go (above_push hs)

theorem above_unwind {f : Frame} {how : Abrupt} (hs : below <:+ stack) :
    (f.unwind how stack).Above below := by
  unfold Frame.unwind
  split
  · exact above_go hs
  · exact above_go hs
  · exact above_go hs
  · exact above_go hs
  · exact above_nextFor hs
  · exact above_go (above_push hs)
  · exact above_nextItem hs
  · exact above_go hs
  · exact above_handle hs
  · exact above_finalize hs
  · exact above_finalize hs
  · exact above_go hs

/-! ## Threads -/

/-- A thread that only hands a value or a jump to the frame on top. -/
def Control.isOver : Control → Bool
  | .ret _ | .leave _ => true
  | _ => false

/-- A step leaves what stands below the frame on top alone; a thread that does more than to hand
    something to that frame leaves the frame alone, too. -/
theorem Thread.above_step {t : Thread} {ps : Promises} (hs : below <:+ t.stack)
    (ht : t.control.isOver = true → t.stack ≠ below) : (t.step ps).Above below := by
  -- a thread that hands something on has a frame on top of what stays
  have htop : t.control.isOver = true → ∃ f stack, t.stack = f :: stack ∧ below <:+ stack := by
    intro hover
    obtain ⟨above, habove⟩ := hs
    cases above with
    | nil => exact absurd habove.symm (ht hover)
    | cons f above => exact ⟨f, above ++ below, habove.symm, List.suffix_append above below⟩
  obtain ⟨control, stack, base⟩ := t
  cases control with
  | program => exact above_runProgram hs
  | statements => exact above_runStatements hs
  | exec => exact above_execStmt hs
  | eval => exact above_evalExpr hs
  | invoke => exact above_invoke hs
  | enter => exact above_bind fun _ => above_enterFunction hs
  | bind => exact above_bindParams hs
  | initialise => exact above_bind fun _ => above_initialise hs
  | ret v =>
    obtain ⟨f, stack, rfl, hstack⟩ := htop rfl
    exact above_receive hstack
  | leave how =>
    obtain ⟨f, stack, rfl, hstack⟩ := htop rfl
    exact above_unwind hstack
  | fail f => exact .throw

end CoScript
