import CoScript.Tree.Parser.Type

/-!
# Expressions

Binary operators are read by climbing their levels. An opening parenthesis may start the head of an
arrow function, and an angle bracket after a name the type arguments of a call; both are tried
first and taken back if they do not go on as such.

Results:
* `Grammar.assignment`: an expression.
-/

namespace CoScript.Grammar

open CoScript.Parser

variable (R : Rules)

/-- Statements between braces. -/
def block : Parser Block := do
  let start ← expectMark .openBrace
  let statements ← within .enterBlock <| loop (fun statements : List Stmt => do
    let t ← peek
    if t.lexeme.isMark .closeBrace then return Turn.done statements
    if t.lexeme.isEnd then reject (.mark .closeBrace)
    else return .again (statements ++ [← R.statement])) []
  let _ ← advance
  return ⟨start.pos, statements⟩

/-- The statements of a function. -/
def functionBlock (isAsync : Bool) : Parser Block :=
  within (.enterFunction isAsync) (block R)

/-- The arguments of a call, with their parentheses. -/
def args : Parser (List Expr) := do
  let _ ← expectMark .openParen
  listUntil .closeParen R.assignment

/-! ## Arrow functions -/

/-- The head of an arrow function after its `async`: parameters, a result type and the arrow on the
    same line. -/
def arrowHead : Parser (List Param) := do
  let ps ← params R
  annotation R
  let t ← peek
  if !t.lexeme.isMark .arrow || t.afterBreak then reject (.mark .arrow)
  else
    let _ ← advance
    return ps

/-- The body of an arrow function. -/
def arrowBody (isAsync : Bool) : Parser FunctionBody := do
  if ← atMark .openBrace then return .block (← functionBlock R isAsync)
  else return .expr (← within (.enterFunction isAsync) R.assignment)

/-- The parameters of an arrow function, if one starts here: a single name or a list in
    parentheses. `offset` is one if `async` comes first. -/
def arrowParams? (offset : Nat) : Parser (Option (List Param)) := do
  let head ← peekAt offset
  match head.lexeme.name? with
  | some name =>
    if (← peekAt (offset + 1)).lexeme.isMark .arrow then
      if offset = 1 then let _ ← advance
      let _ ← advance
      let _ ← advance
      return some [⟨name, none⟩]
    else return none
  | none =>
    if head.lexeme.isMark .openParen then
      speculate do
        if offset = 1 then let _ ← advance
        arrowHead R
    else return none

/-- An arrow function, if one starts here. -/
def arrow? : Parser (Option Expr) := do
  let start ← peek
  let isAsync := start.lexeme.isKeyword .asyncWord
  if isAsync then
    let next ← peekAt 1
    if next.afterBreak || !(next.lexeme.isMark .openParen || next.lexeme.name?.isSome) then
      return none
  match ← arrowParams? R (if isAsync then 1 else 0) with
  | none => return none
  | some ps =>
    let body ← arrowBody R isAsync
    return some (.arrow start.pos ps body isAsync)

/-! ## Literals -/

/-- A function expression after its `async`. -/
def functionExpr (isAsync : Bool) : Parser Expr := do
  let start ← expectKeyword .functionWord
  let name := (← peek).lexeme.name?
  if name.isSome then let _ ← advance
  let generics ← typeParams R
  let ps ← params R
  annotation R
  let body ← functionBlock R isAsync
  return .function start.pos name ps body isAsync generics

/-- The name of a property: a word, a string or a number. -/
def propertyKey : Parser String := do
  match (← peek).lexeme with
  | .string s =>
    let _ ← advance
    return s
  | .number n =>
    let _ ← advance
    return Decimal.numberText n
  | _ => expectPropertyName

/-- A property of an object literal: a value, a method, or a variable of the same name. -/
def property : Parser Property := do
  let start ← peek
  let key ← propertyKey
  if ← acceptMark .colon then return ⟨key, ← R.assignment, false⟩
  else if ← atMark .openParen then
    let ps ← params R
    annotation R
    let body ← functionBlock R false
    return ⟨key, .function start.pos (some key) ps body false none, false⟩
  else if start.lexeme.name?.isSome then return ⟨key, .name start.pos key, true⟩
  else reject (.mark .colon)

/-- An operand without operators around it. -/
def primary : Parser Expr := do
  let t ← peek
  match t.lexeme with
  | .number n =>
    let _ ← advance
    return .literal t.pos (.number n)
  | .string s =>
    let _ ← advance
    return .literal t.pos (.string s)
  | .keyword .trueWord =>
    let _ ← advance
    return .literal t.pos (.bool true)
  | .keyword .falseWord =>
    let _ ← advance
    return .literal t.pos (.bool false)
  | .keyword .nullWord =>
    let _ ← advance
    return .literal t.pos .null
  | .keyword .thisWord =>
    let _ ← advance
    return .this t.pos
  | .keyword .superWord =>
    let _ ← advance
    if (← context).inFunction then return .superCall t.pos (← args R)
    else rejectAt .superCaller t
  | .keyword .functionWord => functionExpr R false
  | .mark .openParen =>
    let _ ← advance
    let e ← R.assignment
    let _ ← expectMark .closeParen
    return e
  | .mark .openBracket =>
    let _ ← advance
    return .array t.pos (← listUntil .closeBracket R.assignment)
  | .mark .openBrace =>
    let _ ← advance
    return .object t.pos (← listUntil .closeBrace (property R))
  | l =>
    if l.isKeyword .asyncWord then
      let next ← peekAt 1
      if next.lexeme.isKeyword .functionWord && !next.afterBreak then
        let _ ← advance
        return ← functionExpr R true
    match l.name? with
    | some name =>
      let _ ← advance
      return .name t.pos name
    | none => reject .expression

/-! ## Calls and members -/

/-- The class and the arguments after `new`. The nearest argument list belongs to it. -/
def construction : Parser Expr := do
  let start ← expectKeyword .newWord
  let first ← if ← atKeyword .newWord then R.construction else primary R
  let cls ← loop (fun cls : Expr => do
    let t ← peek
    if t.lexeme.isMark .dot then
      let _ ← advance
      return Turn.again (.member t.pos cls (← expectPropertyName))
    else return .done cls) first
  if ← atMark .less then typeArgs R
  let t ← peek
  if t.lexeme.isMark .openParen && !t.afterBreak then
    return .construct start.pos cls (← args R)
  else return .construct start.pos cls []

/-- Type arguments of a call, which is to follow on the same line. -/
def callTypeArgs : Parser Unit := do
  typeArgs R
  let t ← peek
  if !t.lexeme.isMark .openParen || t.afterBreak then reject (.mark .openParen)

/-- Whether an expression may be called with type arguments. -/
def takesTypeArgs : Expr → Bool
  | .name .. | .member .. => true
  | _ => false

/-- One member, index or call after an expression. -/
def callMemberTurn (e : Expr) : Parser (Turn Expr Expr) := do
  let t ← peek
  match t.lexeme with
  | .mark .dot =>
    let _ ← advance
    return .again (.member t.pos e (← expectPropertyName))
  | .mark .openBracket =>
    if t.afterBreak then return .done e
    let _ ← advance
    let key ← R.assignment
    let _ ← expectMark .closeBracket
    return .again (.index t.pos e key)
  | .mark .openParen =>
    if t.afterBreak then return .done e
    return .again (.call t.pos e (← args R))
  | .mark .less =>
    if takesTypeArgs e then
      match ← speculate (callTypeArgs R) with
      | some _ => return .again e
      | none => return .done e
    else return .done e
  | _ => return .done e

/-- An operand with the members, indices and calls after it. -/
def callMember : Parser Expr := do
  let first ← if ← atKeyword .newWord then R.construction else primary R
  loop (callMemberTurn R) first

/-! ## Operators -/

/-- The stepping operator that a lexeme writes. -/
def updateOp? : Lexeme → Option UpdateOp
  | .mark .increment => some .increment
  | .mark .decrement => some .decrement
  | _ => none

/-- Rejects an operand that cannot be stepped, at its operator. -/
def checkUpdateTarget (e : Expr) (op : UpdateOp) (t : Token) : Parser Unit :=
  if e.isTarget then return else rejectAt (.updateTarget op.mark) t

/-- An operand with the stepping operator after it, if one is on the same line. -/
def postfixExpr : Parser Expr := do
  let e ← callMember R
  let t ← peek
  match updateOp? t.lexeme with
  | some op =>
    if t.afterBreak then return e
    checkUpdateTarget e op t
    let _ ← advance
    return .update t.pos op false e
  | none => return e

/-- The unary operator that a lexeme writes. -/
def unaryOp? : Lexeme → Option UnaryOp
  | .mark .bang => some .not
  | .mark .minus => some .negate
  | .mark .plus => some .plus
  | .keyword .voidWord => some .discard
  | _ => none

/-- An operand with the operators before it. -/
def unary : Parser Expr := do
  let t ← peek
  if let some op := unaryOp? t.lexeme then
    let _ ← advance
    return .unary t.pos op (← R.unary)
  else if t.lexeme.isKeyword .awaitWord then
    let c ← context
    if c.inFunction && !c.inAsync then rejectAt .asyncAwait t
    else
      let _ ← advance
      return .await t.pos (← R.unary)
  else if let some op := updateOp? t.lexeme then
    let _ ← advance
    let target ← R.unary
    checkUpdateTarget target op t
    return .update t.pos op true target
  else postfixExpr R

/-- The binary operator that a lexeme writes. -/
def binaryOp? : Lexeme → Option BinaryOp
  | .mark m => BinaryOp.ofMark? m
  | _ => none

/-- The level of `as`, whose right operand is a type. -/
def asPrecedence : Nat := 4

/-- One operator of at least a level and its right operand, after the left one. -/
def binaryTurn (level : Nat) (left : Expr) : Parser (Turn Expr Expr) := do
  let t ← peek
  if t.lexeme.isKeyword .asWord && !t.afterBreak && level ≤ asPrecedence then
    let _ ← advance
    R.type
    return .again left
  else
    match binaryOp? t.lexeme with
    | some op =>
      if op.precedence < level then return .done left
      let _ ← advance
      let right ← R.binary (op.precedence + 1)
      return .again (.binary t.pos op left right)
    | none => return .done left

/-- Operands joined by binary operators of at least a level. -/
def binary (level : Nat) : Parser Expr := do
  let left ← R.unary
  loop (binaryTurn R level) left

/-- An expression that may choose between two others. -/
def conditional : Parser Expr := do
  let condition ← R.binary 1
  let t ← peek
  if t.lexeme.isMark .question then
    let _ ← advance
    let thenValue ← R.assignment
    let _ ← expectMark .colon
    let elseValue ← R.assignment
    return .conditional t.pos condition thenValue elseValue
  else return condition

/-- The assignment operator that a lexeme writes. -/
def assignOp? : Lexeme → Option AssignOp
  | .mark m => AssignOp.ofMark? m
  | _ => none

/-- An expression: an arrow function, an assignment or a conditional. -/
def assignment : Parser Expr := do
  match ← arrow? R with
  | some e => return e
  | none =>
    let start ← peek
    let left ← conditional R
    let t ← peek
    match assignOp? t.lexeme with
    | some op =>
      if left.isTarget then
        let _ ← advance
        return .assign t.pos op left (← R.assignment)
      else rejectAt .assignmentTarget start
    | none => return left

end CoScript.Grammar
