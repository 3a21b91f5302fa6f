import CoScript.Tree.Parser.Rules

/-!
# Types and parameters

Types are read to see that they are well formed and then forgotten, apart from the names of
interfaces, of their members and of generic parameters. Parameters stand here because a type may
hold the signature of a method.

Results:
* `Grammar.type`: a type.
* `Grammar.params`: the parameters of a function.
-/

namespace CoScript.Grammar

open CoScript.Parser

variable (R : Rules)

/-- The arguments of a generic type, with their angle brackets. -/
def typeArgs : Parser Unit := do
  let _ ← expectMark .less
  let _ ← sepBy R.type
  let _ ← expectMark .greater

/-- A type annotation, if a colon starts one. -/
def annotation : Parser Unit := do
  if ← acceptMark .colon then R.type

/-- The names after the first one of a dotted name. -/
def dottedTail (name : String) : Parser String :=
  loop (fun name : String => do
    if ← atMark .dot then
      match (← peekAt 1).lexeme.name? with
      | some part =>
        let _ ← advance
        let _ ← advance
        return Turn.again (name ++ "." ++ part)
      | none => return .done name
    else return .done name) name

/-- A named type with its arguments; its name is kept. -/
def typeRef : Parser String := do
  match (← peek).lexeme.name? with
  | none => reject .type
  | some first =>
    let _ ← advance
    let name ← dottedTail first
    let t ← peek
    if t.lexeme.isMark .less && !t.afterBreak then typeArgs R
    return name

/-- One parameter of a function type. -/
def functionTypeParam : Parser Unit := do
  let _ ← expectName
  let _ ← acceptMark .question
  let _ ← expectMark .colon
  R.type

/-- The type of a function. -/
def functionType : Parser Unit := do
  let _ ← expectMark .openParen
  let _ ← listUntil .closeParen (functionTypeParam R)
  let _ ← expectMark .arrow
  R.type

/-- The bound and the default of a generic parameter, and its name. -/
def typeParam (names : List String) : Parser String := do
  let t ← peek
  let name ← expectName
  if ← acceptKeyword .extendsWord then R.type
  if ← acceptMark .assign then R.type
  if names.contains name then rejectAt .distinctTypeParams t else return name

/-- The names of generic parameters, if an angle bracket starts a list of them. -/
def typeParams : Parser TypeParams := do
  if ← acceptMark .less then
    let names ← loop (fun names : List String => do
      let names := names ++ [← typeParam R names]
      if ← acceptMark .comma then return Turn.again names else return .done names) []
    let _ ← expectMark .greater
    return some names
  else return none

/-- One parameter; `this` may be declared but is none. -/
def param : Parser (Option Param) := do
  let isThis ← acceptKeyword .thisWord
  let name ← if isThis then pure "" else expectName
  let _ ← acceptMark .question
  annotation R
  let default ← if ← acceptMark .assign then some <$> R.assignment else pure none
  return if isThis then none else some ⟨name, default⟩

/-- The parameters of a function, with their parentheses. -/
def params : Parser (List Param) := do
  let _ ← expectMark .openParen
  let items ← listUntil .closeParen (param R)
  return items.filterMap id

/-- Skips `readonly` before the name of a member. -/
def skipReadonly : Parser Unit := do
  match (← peek).lexeme with
  | .identifier "readonly" => if (← peekAt 1).lexeme.word?.isSome then let _ ← advance
  | _ => return

/-- The name of a member of an object type: a word or a string. -/
def memberName : Parser String := do
  match (← peek).lexeme with
  | .string name =>
    let _ ← advance
    return name
  | _ => expectPropertyName

/-- A member of an object type: a property or the signature of a method. Its name is kept. -/
def typeMember : Parser String := do
  skipReadonly
  let name ← memberName
  let _ ← acceptMark .question
  if (← atMark .openParen) || (← atMark .less) then
    let _ ← typeParams R
    let _ ← params R
    annotation R
  else
    let _ ← expectMark .colon
    R.type
  return name

/-- The end of a member: a comma, a semicolon, a line break or the closing brace ahead. -/
def memberEnd : Parser Unit := do
  if ← acceptMark .comma then return
  if ← acceptMark .semicolon then return
  let t ← peek
  if t.lexeme.isMark .closeBrace || t.afterBreak then return else reject .memberEnd

/-- An object type; the names of its members are kept. -/
def objectType : Parser (List String) := do
  let _ ← expectMark .openBrace
  let names ← loop (fun names : List String => do
    if ← atMark .closeBrace then return Turn.done names
    let name ← typeMember R
    memberEnd
    return .again (names ++ [name])) []
  let _ ← expectMark .closeBrace
  return names

/-- The type of a function, or a type in parentheses. -/
def parenthesizedType : Parser Unit := do
  match ← speculate (functionType R) with
  | some _ => return
  | none =>
    let _ ← advance
    R.type
    let _ ← expectMark .closeParen

/-- Whether a lexeme is a type by itself. -/
def isSimpleType : Lexeme → Bool
  | .string _ | .number _ => true
  | .keyword .trueWord | .keyword .falseWord | .keyword .nullWord | .keyword .voidWord
  | .keyword .thisWord => true
  | _ => false

/-- A type without operators around it. -/
def primaryType : Parser Unit := do
  let t ← peek
  if t.lexeme.isMark .openParen then parenthesizedType R
  else if t.lexeme.isMark .openBrace then
    let _ ← objectType R
  else if t.lexeme.isMark .openBracket then
    let _ ← advance
    let _ ← listUntil .closeBracket R.type
  else if isSimpleType t.lexeme then
    let _ ← advance
  else
    let _ ← typeRef R

/-- A type with the brackets of arrays after it. -/
def postfixType : Parser Unit := do
  primaryType R
  loop (fun _ : Unit => do
    let t ← peek
    if t.lexeme.isMark .openBracket then
      if (← peekAt 1).lexeme.isMark .closeBracket then
        if t.afterBreak then return Turn.done ()
        let _ ← advance
        let _ ← advance
        return .again ()
      else return .done ()
    else return .done ()) ()

/-- Types joined by a mark. -/
def joined (m : Mark) (item : Parser Unit) : Parser Unit :=
  loop (fun _ : Unit => do
    item
    if ← acceptMark m then return Turn.again () else return .done ()) ()

/-- Types joined by `&`. -/
def intersectionType : Parser Unit :=
  joined .ampersand (postfixType R)

/-- A type: intersections joined by `|`, which may also come first. -/
def type : Parser Unit := do
  let _ ← acceptMark .bar
  joined .bar (intersectionType R)

end CoScript.Grammar
