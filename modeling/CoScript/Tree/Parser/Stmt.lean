import CoScript.Tree.Parser.Expr

/-!
# Statements

A statement is recognised by its first word. A line break, a closing brace or the end of the input
ends one that has no semicolon.

Results:
* `Grammar.statement`: a statement.
-/

namespace CoScript.Grammar

open CoScript.Parser

variable (R : Rules)

/-! ## Declarations -/

/-- How the keyword of a declaration declares. -/
def declKind? : Lexeme → Option DeclKind
  | .keyword .constWord => some .constant
  | .keyword .letWord => some .block
  | .keyword .varWord => some .function
  | _ => none

/-- A value after an equals sign, if there is one. -/
def initializer : Parser (Option Expr) := do
  if ← acceptMark .assign then some <$> R.assignment else return none

/-- The declaration of a variable without its end; `kind` is what its keyword says. -/
def varDecl (kind : DeclKind) : Parser VarDecl := do
  let start ← advance
  let name ← expectName
  annotation R
  let value ← initializer R
  if kind = .constant && value.isNone then reject .initializer
  else return ⟨start.pos, kind, name, value⟩

/-- The parameters, the result type and the body of a function, and its generic parameters. -/
def functionRest (pos : Position) (name : String) (isAsync : Bool) : Parser FunctionDecl := do
  let generics ← typeParams R
  let ps ← params R
  annotation R
  let body ← functionBlock R isAsync
  return ⟨pos, name, ps, body, isAsync, generics⟩

/-- The declaration of a function after its `async`. -/
def functionDecl (isAsync : Bool) : Parser FunctionDecl := do
  let start ← expectKeyword .functionWord
  let name ← expectName
  functionRest R start.pos name isAsync

/-- The words that may stand before a member of a class and mean nothing. -/
def modifiers : List String := ["public", "private", "protected", "readonly", "declare"]

/-- Whether a word follows the next token on the same line. -/
def wordFollows : Parser Bool := do
  let t ← peekAt 1
  return !t.afterBreak && t.lexeme.word?.isSome

/-- Skips the modifiers before a member of a class. -/
def skipModifiers : Parser Unit :=
  loop (fun _ : Unit => do
    match (← peek).lexeme with
    | .identifier name =>
      if modifiers.contains name then
        if ← wordFollows then
          let _ ← advance
          return Turn.again ()
        else return .done ()
      else return .done ()
    | _ => return .done ()) ()

/-- Takes `async` before the name of a method. -/
def asyncModifier : Parser Bool := do
  if ← atKeyword .asyncWord then
    if ← wordFollows then
      let _ ← advance
      return true
    else return false
  else return false

/-- A member of a class. -/
def classMember : Parser (FieldDecl ⊕ FunctionDecl) := do
  skipModifiers
  let isAsync ← asyncModifier
  let start ← peek
  let name ← expectPropertyName
  if (← atMark .openParen) || (← atMark .less) then
    return .inr (← functionRest R start.pos name isAsync)
  else if isAsync then reject (.mark .openParen)
  else
    let _ ← acceptMark .question
    annotation R
    let value ← initializer R
    endStatement
    return .inl ⟨start.pos, name, value⟩

/-- The members of a class, with their braces. -/
def classBody : Parser (List (FieldDecl ⊕ FunctionDecl)) := do
  let _ ← expectMark .openBrace
  loop (fun members : List (FieldDecl ⊕ FunctionDecl) => do
    if ← acceptMark .closeBrace then return Turn.done members
    if (← peek).lexeme.isEnd then reject (.mark .closeBrace)
    else if ← acceptMark .semicolon then return .again members
    else return .again (members ++ [← classMember R])) []

/-- The class that a class extends. -/
def superclass : Parser (Option String) := do
  if ← acceptKeyword .extendsWord then
    let name ← expectName
    if ← atMark .less then typeArgs R
    return some name
  else return none

/-- The names of types after a keyword, if it is there. -/
def typeRefsAfter (k : Keyword) : Parser (List String) := do
  if ← acceptKeyword k then sepBy (typeRef R) else return []

/-- The declaration of a class. -/
def classDecl : Parser ClassDecl := do
  let start ← expectKeyword .classWord
  let name ← expectName
  let generics ← typeParams R
  let base ← superclass R
  let interfaces ← typeRefsAfter R .implementsWord
  let members ← classBody R
  return ⟨start.pos, name, base, interfaces, members.filterMap (·.getLeft?),
    members.filterMap (·.getRight?), generics⟩

/-- The declaration of an interface. -/
def interfaceDecl : Parser InterfaceDecl := do
  let start ← expectKeyword .interfaceWord
  let name ← expectName
  let generics ← typeParams R
  let bases ← typeRefsAfter R .extendsWord
  let members ← objectType R
  return ⟨start.pos, name, bases, members, generics⟩

/-- The declaration of a name for a type. -/
def typeAlias : Parser Stmt := do
  let start ← expectKeyword .typeWord
  let name ← expectName
  let generics ← typeParams R
  let _ ← expectMark .assign
  R.type
  endStatement
  return .typeAlias start.pos name generics

/-! ## Imports -/

/-- One name between the braces of an import. -/
def importedName : Parser ImportBinding := do
  let name ← expectPropertyName
  let localAs ← if ← acceptKeyword .asWord then some <$> expectName else pure none
  return ⟨name, localAs⟩

/-- The names that an import binds. -/
def importBindings : Parser (List ImportBinding) := do
  if ← acceptMark .star then
    let _ ← expectKeyword .asWord
    return [⟨"*", some (← expectName)⟩]
  else if ← acceptMark .openBrace then listUntil .closeBrace importedName
  else return [⟨"default", some (← expectName)⟩]

/-- The specifier of a module. -/
def specifier : Parser String := do
  match (← peek).lexeme with
  | .string s =>
    let _ ← advance
    return s
  | _ => reject .specifier

/-- Whether a lexeme is a string. -/
def isString : Lexeme → Bool
  | .string _ => true
  | _ => false

/-- An import, which may not stand inside a block or a function. -/
def importDecl : Parser ImportDecl := do
  let start ← expectKeyword .importWord
  let c ← context
  if c.inBlock || c.inFunction then rejectAt .topLevelImport start
  else
    let bindings ←
      if isString (← peek).lexeme then pure []
      else do
        let bindings ← importBindings
        let _ ← expectKeyword .fromWord
        pure bindings
    let source ← specifier
    endStatement
    return ⟨start.pos, source, bindings⟩

/-! ## Branches and loops -/

/-- An expression in parentheses. -/
def parenthesized : Parser Expr := do
  let _ ← expectMark .openParen
  let e ← R.assignment
  let _ ← expectMark .closeParen
  return e

/-- A conditional statement. -/
def branch : Parser Stmt := do
  let start ← expectKeyword .ifWord
  let condition ← parenthesized R
  let thenBranch ← R.statement
  let elseBranch ← if ← acceptKeyword .elseWord then some <$> R.statement else pure none
  return .branch start.pos condition thenBranch elseBranch

/-- The body of a loop. -/
def loopBody : Parser Stmt :=
  within .enterLoop R.statement

/-- A loop over the items of a value, after the opening parenthesis. -/
def forOf (pos : Position) (kind : DeclKind) : Parser Stmt := do
  let _ ← advance
  let name ← expectName
  let _ ← expectKeyword .ofWord
  let iterable ← R.assignment
  let _ ← expectMark .closeParen
  return .forOf pos kind name iterable (← loopBody R)

/-- What a `for` loop does before its first test, if anything. -/
def forInit : Parser (Option ForInit) := do
  let t ← peek
  if t.lexeme.isMark .semicolon then return none
  match declKind? t.lexeme with
  | some kind => return some (.declare (← varDecl R kind))
  | none => return some (.expr t.pos (← R.assignment))

/-- An expression, unless a mark comes at once. -/
def exprUnless (m : Mark) : Parser (Option Expr) := do
  if ← atMark m then return none else some <$> R.assignment

/-- A loop with a start, a test and an update, after the opening parenthesis. -/
def forClassic (pos : Position) : Parser Stmt := do
  let init ← forInit R
  let _ ← expectMark .semicolon
  let condition ← exprUnless R .semicolon
  let _ ← expectMark .semicolon
  let update ← exprUnless R .closeParen
  let _ ← expectMark .closeParen
  return .forLoop pos init condition update (← loopBody R)

/-- A `for` loop of either form; `of` after the declared name tells which. -/
def forLoop : Parser Stmt := do
  let start ← expectKeyword .forWord
  let _ ← expectMark .openParen
  match declKind? (← peek).lexeme with
  | some kind =>
    if (← peekAt 2).lexeme.isKeyword .ofWord then forOf R start.pos kind
    else forClassic R start.pos
  | none => forClassic R start.pos

/-- A loop with a test. -/
def whileLoop : Parser Stmt := do
  let start ← expectKeyword .whileWord
  let condition ← parenthesized R
  return .whileLoop start.pos condition (← loopBody R)

/-- The test of a clause, without one for the default clause. -/
def caseTest (seenDefault : Bool) : Parser (Option Expr) := do
  let t ← peek
  if t.lexeme.isKeyword .caseWord then
    let _ ← advance
    some <$> R.assignment
  else if t.lexeme.isKeyword .defaultWord then
    if seenDefault then rejectAt .singleDefault t
    else
      let _ ← advance
      return none
  else reject .switchClause

/-- A clause of a switch. -/
def switchCase (seenDefault : Bool) : Parser SwitchCase := do
  let start ← peek
  let test ← caseTest R seenDefault
  let _ ← expectMark .colon
  let body ← loop (fun body : List Stmt => do
    let t ← peek
    if t.lexeme.isKeyword .caseWord || t.lexeme.isKeyword .defaultWord
        || t.lexeme.isMark .closeBrace then return Turn.done body
    if t.lexeme.isEnd then reject (.mark .closeBrace)
    else return .again (body ++ [← R.statement])) []
  return ⟨start.pos, test, body⟩

/-- A choice between clauses. -/
def switchStmt : Parser Stmt := do
  let start ← expectKeyword .switchWord
  let discriminant ← parenthesized R
  let _ ← expectMark .openBrace
  let cases ← within .enterSwitch <| loop (fun cases : List SwitchCase => do
    if ← acceptMark .closeBrace then return Turn.done cases
    else return .again (cases ++ [← switchCase R (cases.any (·.test.isNone))])) []
  return .switchStmt start.pos discriminant cases

/-! ## Leaving -/

/-- A jump out of a loop or a switch. -/
def breakStmt : Parser Stmt := do
  let start ← expectKeyword .breakWord
  let c ← context
  if c.inLoop || c.inSwitch then
    endStatement
    return .breakStmt start.pos
  else rejectAt .breakTarget start

/-- A jump to the next round of a loop. -/
def continueStmt : Parser Stmt := do
  let start ← expectKeyword .continueWord
  if (← context).inLoop then
    endStatement
    return .continueStmt start.pos
  else rejectAt .continueTarget start

/-- A return from a function. -/
def returnStmt : Parser Stmt := do
  let start ← expectKeyword .returnWord
  if (← context).inFunction then
    let t ← peek
    let value ←
      if t.lexeme.isMark .semicolon || t.lexeme.isMark .closeBrace || t.lexeme.isEnd || t.afterBreak
      then pure none
      else some <$> R.assignment
    endStatement
    return .returnStmt start.pos value
  else rejectAt .returnTarget start

/-- A throw, whose value starts on the same line. -/
def throwStmt : Parser Stmt := do
  let start ← expectKeyword .throwWord
  if (← peek).afterBreak then reject .thrownValue
  else
    let value ← R.assignment
    endStatement
    return .throwStmt start.pos value

/-- The name that a handler binds, if it binds one. -/
def catchName : Parser (Option String) := do
  if ← acceptMark .openParen then
    let name ← expectName
    annotation R
    let _ ← expectMark .closeParen
    return some name
  else return none

/-- Guarded statements with a handler, a finalizer or both. -/
def tryStmt : Parser Stmt := do
  let start ← expectKeyword .tryWord
  let body ← block R
  let (name, handler) ←
    if ← acceptKeyword .catchWord then do
      let name ← catchName R
      pure (name, some (← block R))
    else pure (none, none)
  let finalizer ← if ← acceptKeyword .finallyWord then some <$> block R else pure none
  if handler.isNone && finalizer.isNone then reject .catchOrFinally
  else return .tryStmt start.pos body name handler finalizer

/-! ## All statements -/

/-- An expression as a statement. -/
def exprStmt : Parser Stmt := do
  let t ← peek
  let value ← R.assignment
  endStatement
  return .expr t.pos value

/-- A statement that starts with a keyword. -/
def keywordStmt (k : Keyword) : Parser Stmt := do
  match k with
  | .functionWord => return .functionDecl (← functionDecl R false)
  | .asyncWord =>
    let next ← peekAt 1
    if next.lexeme.isKeyword .functionWord && !next.afterBreak then
      let _ ← advance
      return .functionDecl (← functionDecl R true)
    else exprStmt R
  | .classWord => return .classDecl (← classDecl R)
  | .interfaceWord =>
    if (← peekAt 1).lexeme.name?.isSome then return .interfaceDecl (← interfaceDecl R)
    else exprStmt R
  | .typeWord => if (← peekAt 1).lexeme.name?.isSome then typeAlias R else exprStmt R
  | .importWord => return .importDecl (← importDecl)
  | .ifWord => branch R
  | .forWord => forLoop R
  | .whileWord => whileLoop R
  | .switchWord => switchStmt R
  | .breakWord => breakStmt
  | .continueWord => continueStmt
  | .returnWord => returnStmt R
  | .throwWord => throwStmt R
  | .tryWord => tryStmt R
  | _ => exprStmt R

/-- A statement. -/
def statement : Parser Stmt := do
  let t ← peek
  match t.lexeme with
  | .mark .semicolon =>
    let _ ← advance
    return .block ⟨t.pos, []⟩
  | .mark .openBrace => return .block (← block R)
  | .keyword k =>
    match declKind? (.keyword k) with
    | some kind =>
      let decl ← varDecl R kind
      endStatement
      return .varDecl decl
    | none => keywordStmt R k
  | _ => exprStmt R

/-- The statements of a program. -/
def program : Parser Program := do
  let statements ← loop (fun statements : List Stmt => do
    if (← peek).lexeme.isEnd then return Turn.done statements
    else return .again (statements ++ [← R.statement])) []
  return ⟨statements⟩

end CoScript.Grammar
