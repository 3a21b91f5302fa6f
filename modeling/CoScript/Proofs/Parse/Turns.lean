import CoScript.Tree.Parser
import Mathlib.Data.Nat.Notation

/-!
# The rounds of the loops

Every loop of the grammar with its rounds under a name of their own.

Results:
* `Grammar.Turns`: the rounds of all loops.
-/

namespace CoScript

open CoScript.Parser

variable {α : Type}

namespace Parser

/-- One more item of a list, or its end before a closing mark. -/
def listTurn (close : Mark) (item : Parser α) (items : List α) :
    Parser (Turn (List α) (List α)) := do
  if ← atMark close then return Turn.done items
  let items := items ++ [← item]
  if ← acceptMark .comma then return .again items else return .done items

/-- One more item, after which another one comes if a comma does. -/
def sepTurn (item : Parser α) (items : List α) : Parser (Turn (List α) (List α)) := do
  let items := items ++ [← item]
  if ← acceptMark .comma then return Turn.again items else return .done items

theorem listUntil_eq (close : Mark) (item : Parser α) :
    listUntil close item = do
      let items ← loop (listTurn close item) []
      let _ ← expectMark close
      return items := rfl

theorem sepBy_eq (item : Parser α) : sepBy item = loop (sepTurn item) [] := rfl

end Parser

namespace Grammar

variable (R : Rules)

/-! ## Types and parameters -/

/-- One more part of a dotted name. -/
def dottedTurn (name : String) : Parser (Turn String String) := do
  if ← atMark .dot then
    match (← peekAt 1).lexeme.name? with
    | some part =>
      let _ ← advance
      let _ ← advance
      return Turn.again (name ++ "." ++ part)
    | none => return .done name
  else return .done name

/-- One more generic parameter. -/
def typeParamTurn (names : List String) : Parser (Turn (List String) (List String)) := do
  let names := names ++ [← typeParam R names]
  if ← acceptMark .comma then return Turn.again names else return .done names

/-- One more member of an object type. -/
def typeMemberTurn (names : List String) : Parser (Turn (List String) (List String)) := do
  if ← atMark .closeBrace then return Turn.done names
  let name ← typeMember R
  memberEnd
  return .again (names ++ [name])

/-- The brackets of one more array. -/
def arrayTurn (_ : Unit) : Parser (Turn Unit Unit) := do
  let t ← peek
  if t.lexeme.isMark .openBracket then
    if (← peekAt 1).lexeme.isMark .closeBracket then
      if t.afterBreak then return Turn.done ()
      let _ ← advance
      let _ ← advance
      return .again ()
    else return .done ()
  else return .done ()

/-- One more type joined to others. -/
def joinedTurn (m : Mark) (item : Parser Unit) (_ : Unit) : Parser (Turn Unit Unit) := do
  item
  if ← acceptMark m then return Turn.again () else return .done ()

theorem dottedTail_eq (name : String) : dottedTail name = loop dottedTurn name := rfl

theorem typeParams_eq : typeParams R = do
    if ← acceptMark .less then
      let names ← loop (typeParamTurn R) []
      let _ ← expectMark .greater
      return some names
    else return none := rfl

theorem objectType_eq : objectType R = do
    let _ ← expectMark .openBrace
    let names ← loop (typeMemberTurn R) []
    let _ ← expectMark .closeBrace
    return names := rfl

theorem postfixType_eq : postfixType R = (do
    primaryType R
    loop arrayTurn ()) := rfl

theorem joined_eq (m : Mark) (item : Parser Unit) :
    joined m item = loop (joinedTurn m item) () := rfl

/-! ## Expressions -/

/-- One more statement of a block. -/
def blockTurn (statements : List Stmt) : Parser (Turn (List Stmt) (List Stmt)) := do
  let t ← peek
  if t.lexeme.isMark .closeBrace then return Turn.done statements
  if t.lexeme.isEnd then reject (.mark .closeBrace)
  else return .again (statements ++ [← R.statement])

/-- One more name of the class to be constructed. -/
def classTurn (cls : Expr) : Parser (Turn Expr Expr) := do
  let t ← peek
  if t.lexeme.isMark .dot then
    let _ ← advance
    return Turn.again (.member t.pos cls (← expectPropertyName))
  else return .done cls

theorem block_eq : block R = do
    let start ← expectMark .openBrace
    let statements ← within .enterBlock <| loop (blockTurn R) []
    let _ ← advance
    return ⟨start.pos, statements⟩ := rfl

theorem construction_eq : construction R = do
    let start ← expectKeyword .newWord
    let first ← if ← atKeyword .newWord then R.construction else primary R
    let cls ← loop classTurn first
    if ← atMark .less then typeArgs R
    let t ← peek
    if t.lexeme.isMark .openParen && !t.afterBreak then
      return .construct start.pos cls (← args R)
    else return .construct start.pos cls [] := rfl

/-! ## Statements -/

/-- One more modifier of a member. -/
def modifierTurn (_ : Unit) : Parser (Turn Unit Unit) := do
  match (← peek).lexeme with
  | .identifier name =>
    if modifiers.contains name then
      if ← wordFollows then
        let _ ← advance
        return Turn.again ()
      else return .done ()
    else return .done ()
  | _ => return .done ()

/-- One more member of a class, or a semicolon. -/
def memberTurn (members : List (FieldDecl ⊕ FunctionDecl)) :
    Parser (Turn (List (FieldDecl ⊕ FunctionDecl)) (List (FieldDecl ⊕ FunctionDecl))) := do
  if ← acceptMark .closeBrace then return Turn.done members
  if (← peek).lexeme.isEnd then reject (.mark .closeBrace)
  else if ← acceptMark .semicolon then return .again members
  else return .again (members ++ [← classMember R])

/-- One more statement of a clause. -/
def clauseTurn (body : List Stmt) : Parser (Turn (List Stmt) (List Stmt)) := do
  let t ← peek
  if t.lexeme.isKeyword .caseWord || t.lexeme.isKeyword .defaultWord
      || t.lexeme.isMark .closeBrace then return Turn.done body
  if t.lexeme.isEnd then reject (.mark .closeBrace)
  else return .again (body ++ [← R.statement])

/-- One more clause of a switch. -/
def switchTurn (cases : List SwitchCase) : Parser (Turn (List SwitchCase) (List SwitchCase)) := do
  if ← acceptMark .closeBrace then return Turn.done cases
  else return .again (cases ++ [← switchCase R (cases.any (·.test.isNone))])

/-- One more statement of a program. -/
def programTurn (statements : List Stmt) : Parser (Turn (List Stmt) (List Stmt)) := do
  if (← peek).lexeme.isEnd then return Turn.done statements
  else return .again (statements ++ [← R.statement])

theorem skipModifiers_eq : skipModifiers = loop modifierTurn () := rfl

theorem classBody_eq : classBody R = (do
    let _ ← expectMark .openBrace
    loop (memberTurn R) []) := rfl

theorem switchCase_eq (seenDefault : Bool) : switchCase R seenDefault = do
    let start ← peek
    let test ← caseTest R seenDefault
    let _ ← expectMark .colon
    let body ← loop (clauseTurn R) []
    return ⟨start.pos, test, body⟩ := rfl

theorem switchStmt_eq : switchStmt R = do
    let start ← expectKeyword .switchWord
    let discriminant ← parenthesized R
    let _ ← expectMark .openBrace
    let cases ← within .enterSwitch <| loop (switchTurn R) []
    return .switchStmt start.pos discriminant cases := rfl

theorem program_eq : program R = do
    let statements ← loop (programTurn R) []
    return ⟨statements⟩ := rfl

/-! ## All loops -/

/-- The rounds of the loops of the grammar. -/
inductive Turns : {σ α : Type} → (σ → Parser (Turn σ α)) → Prop
  | typeArgs : Turns (sepTurn R.type)
  | dottedTail : Turns dottedTurn
  | functionType : Turns (listTurn .closeParen (functionTypeParam R))
  | typeParams : Turns (typeParamTurn R)
  | params : Turns (listTurn .closeParen (param R))
  | objectType : Turns (typeMemberTurn R)
  | tupleType : Turns (listTurn .closeBracket R.type)
  | postfixType : Turns arrayTurn
  | intersectionType : Turns (joinedTurn .ampersand (postfixType R))
  | type : Turns (joinedTurn .bar (intersectionType R))
  | block : Turns (blockTurn R)
  | args : Turns (listTurn .closeParen R.assignment)
  | array : Turns (listTurn .closeBracket R.assignment)
  | object : Turns (listTurn .closeBrace (property R))
  | construction : Turns classTurn
  | callMember : Turns (callMemberTurn R)
  | binary (level : ℕ) : Turns (binaryTurn R level)
  | skipModifiers : Turns modifierTurn
  | classBody : Turns (memberTurn R)
  | typeRefs : Turns (sepTurn (typeRef R))
  | importBindings : Turns (listTurn .closeBrace importedName)
  | switchCase : Turns (clauseTurn R)
  | switchStmt : Turns (switchTurn R)
  | program : Turns (programTurn R)

end Grammar

end CoScript
