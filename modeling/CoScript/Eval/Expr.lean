import CoScript.Eval.Place

/-!
# Starting expressions

Results:
* `evalExpr`: the first step of an expression.
-/

namespace CoScript

open Effect

/-- The value of a literal. -/
def Literal.value : Literal → Value
  | .number x => .number x
  | .string s => .string s
  | .bool b => .bool b
  | .null => .null

/-- How a message calls what an expression stands for. -/
def Expr.describe : Expr → String
  | .name _ ident => "'" ++ ident ++ "'"
  | .member _ _ attr => "'" ++ attr ++ "'"
  | _ => "expression"

/-- Starts a call: the callee, or the object whose member it is, comes first. -/
def evalCall (callee : Expr) (args : List Expr) (pos : Position) (scope : Ref .scope)
    (stack : List Frame) : Move :=
  let what := callee.describe
  match callee with
  | .member attrPos object attr =>
    .go (.eval object scope) (.methodOf attr attrPos args what pos scope :: stack)
  | e => .go (.eval e scope) (.calleeOf args what pos scope :: stack)

/-- Makes the function of a function expression; one with a name can call itself by it. -/
def evalFunction (name : Option String) (params : List Param) (body : Block) (isAsync : Bool)
    (scope : Ref .scope) : Effect Value := do
  match name with
  | none => newFunction (.closure ⟨none, params, .block body, scope, isAsync, false, none⟩)
  | some n =>
    let own ← newScope scope false
    let f ← newFunction (.closure ⟨some n, params, .block body, own, isAsync, false, none⟩)
    define own n f false none
    return f

/-- Starts a call of the constructor above: `super` and `this` are looked up first. -/
def evalSuperCall (ps : Promises) (args : List Expr) (pos : Position) (scope : Ref .scope)
    (stack : List Frame) : Effect Move := do
  match ← lookup scope "super" (some pos) with
  | .cls r =>
    let receiver ← lookup scope "this" none
    collectArgs ps (.superCall r receiver) [] args scope stack
  | _ => fault .superOutside (some pos)

/-- Goes on with the properties of an object literal. -/
def evalProperties (done : Ordered Value) (rest : List Property) (scope : Ref .scope)
    (stack : List Frame) : Effect Move := do
  match rest with
  | [] => return .ret (.object (← inHeap (·.newObject done))) stack
  | p :: rest => return .go (.eval p.value scope) (.property done p.key rest scope :: stack)

/-- The first step of an expression. -/
def evalExpr (ps : Promises) (e : Expr) (scope : Ref .scope) (stack : List Frame) :
    Effect Move := do
  match e with
  | .literal _ value => return .ret value.value stack
  | .name pos ident => return .ret (← lookup scope ident (some pos)) stack
  | .this _ => return .ret (← lookup scope "this" none) stack
  | .array _ elements => collectArgs ps .array [] elements scope stack
  | .object _ properties => evalProperties .empty properties scope stack
  | .binary pos op left right =>
    return .go (.eval left scope) (.binaryRight op right pos scope :: stack)
  | .unary pos op operand => return .go (.eval operand scope) (.unaryApply op pos :: stack)
  | .update pos op before target => evalTarget ps target (.update op before pos) scope stack
  | .assign pos op target value => evalTarget ps target (.assign op value pos) scope stack
  | .conditional _ condition thenValue elseValue =>
    return .go (.eval condition scope) (.choose thenValue elseValue scope :: stack)
  | .call pos callee args => return evalCall callee args pos scope stack
  | .member pos object attr => return .go (.eval object scope) (.memberOf attr pos :: stack)
  | .index pos object key => return .go (.eval object scope) (.indexKey key pos scope :: stack)
  | .construct pos cls args =>
    return .go (.eval cls scope) (.classOf args cls.describe pos scope :: stack)
  | .superCall pos args => evalSuperCall ps args pos scope stack
  | .await _ value => return .go (.eval value scope) (.awaiting :: stack)
  | .arrow _ params body isAsync =>
    return .ret (← newFunction (.closure ⟨none, params, body, scope, isAsync, true, none⟩)) stack
  | .function _ name params body isAsync _ =>
    return .ret (← evalFunction name params body isAsync scope) stack

end CoScript
