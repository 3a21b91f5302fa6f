import CoScript.Report
import CoScript.Source.Lexer

/-!
# Parsers

A parser reads tokens from the front of a list, in a context that says what surrounds the place. It
gives a result and the tokens left, rejects the input, or runs into the lexical error at the end of
the tokens. A rejection can be taken back, a lexical error cannot.

Results:
* `speculate`: a parser that leaves the input alone when it is rejected.
* `listUntil`, `sepBy`: lists between marks.
-/

namespace CoScript

/-- What a parser wants to see. -/
inductive Expectation where
  | mark (m : Mark)
  | keyword (k : Keyword)
  | identifier
  | propertyName
  | statementEnd
  | initializer
  | distinctTypeParams
  | topLevelImport
  | specifier
  | switchClause
  | singleDefault
  | breakTarget
  | continueTarget
  | returnTarget
  | thrownValue
  | catchOrFinally
  | assignmentTarget
  | updateTarget (op : Mark)
  | asyncAwait
  | superCaller
  | expression
  | type
  | memberEnd
  deriving Repr, DecidableEq

/-- The wording of what is expected. -/
def Expectation.text : Expectation → String
  | .mark m => "'" ++ m.text ++ "'"
  | .keyword k => "'" ++ k.text ++ "'"
  | .identifier => "identifier"
  | .propertyName => "property name"
  | .statementEnd => "';' or newline"
  | .initializer => "'=' (const declarations need an initializer)"
  | .distinctTypeParams => "distinct type parameter names"
  | .topLevelImport => "import at module top level"
  | .specifier => "module specifier string"
  | .switchClause => "'case', 'default' or '\x7d'"
  | .singleDefault => "a single 'default' clause"
  | .breakTarget => "'break' inside a loop or switch"
  | .continueTarget => "'continue' inside a loop"
  | .returnTarget => "'return' inside a function"
  | .thrownValue => "expression on the same line as 'throw'"
  | .catchOrFinally => "'catch' or 'finally'"
  | .assignmentTarget => "assignable target"
  | .updateTarget op => "assignable operand for '" ++ op.text ++ "'"
  | .asyncAwait => "'await' inside an async function"
  | .superCaller => "'super' inside a constructor"
  | .expression => "expression"
  | .type => "type"
  | .memberEnd => "',', ';' or newline"

/-- A token where something else is expected. -/
structure ParseError where
  expected : Expectation
  found : Lexeme
  pos : Position
  deriving Repr

/-- The message of a parse error. -/
def ParseError.message (e : ParseError) : String :=
  "expected " ++ e.expected.text ++ ", found " ++ e.found.text

/-- Why a source text is no program. `tooDeep` says that the tokens nest deeper than the parser was
    allowed to follow. -/
inductive SyntaxError where
  | lexical (error : LexError)
  | grammatical (error : ParseError)
  | tooDeep
  deriving Repr

/-- A syntax error as it is shown. -/
def SyntaxError.report : SyntaxError → Report
  | .lexical e => ⟨"LexError", e.cause.message, some e.pos, none⟩
  | .grammatical e => ⟨"ParseError", e.message, some e.pos, none⟩
  | .tooDeep => ⟨"ParseError", "nesting too deep", none, none⟩

/-- What surrounds the place where a parser stands, and how the tokens end. -/
structure Context where
  ending : Ending
  inFunction : Bool
  inAsync : Bool
  inLoop : Bool
  inSwitch : Bool
  inBlock : Bool

namespace Context

/-- The context of the statements of a program. -/
def topLevel (ending : Ending) : Context :=
  ⟨ending, false, false, false, false, false⟩

/-- The context inside a function: its loops and switches start anew. -/
def enterFunction (isAsync : Bool) (c : Context) : Context :=
  { c with inFunction := true, inAsync := isAsync, inLoop := false, inSwitch := false }

/-- The context inside a loop. -/
def enterLoop (c : Context) : Context :=
  { c with inLoop := true }

/-- The context inside a block. -/
def enterBlock (c : Context) : Context :=
  { c with inBlock := true }

/-- The context inside a switch. -/
def enterSwitch (c : Context) : Context :=
  { c with inSwitch := true, inBlock := true }

end Context

/-- How a parser ends. -/
inductive Outcome (α : Type) where
  | ok (value : α) (rest : List Token)
  | rejected (error : ParseError)
  | broken (error : LexError)
  | tooDeep

/-- A parser of an `α`. -/
def Parser (α : Type) : Type :=
  Context → List Token → Outcome α

namespace Parser

variable {α β σ : Type}

instance : Monad Parser where
  pure a := fun _ ts => .ok a ts
  bind p f := fun c ts =>
    match p c ts with
    | .ok a rest => f a c rest
    | .rejected e => .rejected e
    | .broken e => .broken e
    | .tooDeep => .tooDeep

/-! ## Looking and moving -/

/-- The token `n` places ahead; past the last one, the end of the input or the lexical error
    there. -/
def peekAt (n : Nat) : Parser Token := fun c ts =>
  match ts[n]? with
  | some t => .ok t ts
  | none =>
    match c.ending with
    | .complete pos => .ok (.endOfInput pos) ts
    | .broken e => .broken e

/-- The next token. -/
def peek : Parser Token :=
  peekAt 0

/-- The next token, which is taken unless it is the end of the input. -/
def advance : Parser Token := do
  let t ← peek
  fun _ ts => .ok t (ts.drop 1)

/-- The context. -/
def context : Parser Context := fun c ts =>
  .ok c ts

/-- A parser in another context. -/
def within (f : Context → Context) (p : Parser α) : Parser α := fun c ts =>
  p (f c) ts

/-- Rejects the input at a token. -/
def rejectAt (expected : Expectation) (t : Token) : Parser α := fun _ _ =>
  .rejected ⟨expected, t.lexeme, t.pos⟩

/-- Rejects the input at the next token. -/
def reject (expected : Expectation) : Parser α := do
  rejectAt expected (← peek)

/-- Gives up on an input that nests too deep. -/
def tooDeep : Parser α := fun _ _ =>
  .tooDeep

/-- The result of a parser, or nothing and the input as it was if the parser rejects it. -/
def speculate (p : Parser α) : Parser (Option α) := fun c ts =>
  match p c ts with
  | .ok a rest => .ok (some a) rest
  | .rejected _ => .ok none ts
  | .broken e => .broken e
  | .tooDeep => .tooDeep

/-! ## Single tokens -/

/-- Whether the next token is a mark. -/
def atMark (m : Mark) : Parser Bool :=
  return (← peek).lexeme.isMark m

/-- Whether the next token is a keyword. -/
def atKeyword (k : Keyword) : Parser Bool :=
  return (← peek).lexeme.isKeyword k

/-- Takes a mark if it is next. -/
def acceptMark (m : Mark) : Parser Bool := do
  if ← atMark m then
    let _ ← advance
    return true
  else return false

/-- Takes a keyword if it is next. -/
def acceptKeyword (k : Keyword) : Parser Bool := do
  if ← atKeyword k then
    let _ ← advance
    return true
  else return false

/-- Takes a mark, which has to be next. -/
def expectMark (m : Mark) : Parser Token := do
  if ← atMark m then advance else reject (.mark m)

/-- Takes a keyword, which has to be next. -/
def expectKeyword (k : Keyword) : Parser Token := do
  if ← atKeyword k then advance else reject (.keyword k)

/-- Takes a name, which has to be next. -/
def expectName : Parser String := do
  match (← peek).lexeme.name? with
  | some name =>
    let _ ← advance
    return name
  | none => reject .identifier

/-- Takes a word of any kind, which has to be next. -/
def expectPropertyName : Parser String := do
  match (← peek).lexeme.word? with
  | some name =>
    let _ ← advance
    return name
  | none => reject .propertyName

/-- Ends a statement: a semicolon, which is taken, or a place where none is needed. -/
def endStatement : Parser Unit := do
  let t ← peek
  if t.lexeme.isMark .semicolon then
    let _ ← advance
  else if t.lexeme.isMark .closeBrace || t.lexeme.isEnd || t.afterBreak then return
  else reject .statementEnd

/-! ## Repetition -/

/-- What a round of a loop decides. -/
inductive Turn (σ α : Type) where
  | again (state : σ)
  | done (value : α)

/-- At most `n` rounds of a loop. -/
def rounds (step : σ → Parser (Turn σ α)) : Nat → σ → Parser α
  | 0, _ => tooDeep
  | n + 1, s => do
    match ← step s with
    | .again s => rounds step n s
    | .done a => return a

/-- Rounds of a loop until one is done. Every round but the last takes a token, so there are no more
    than the tokens and one. -/
def loop (step : σ → Parser (Turn σ α)) (s : σ) : Parser α := fun c ts =>
  rounds step (ts.length + 1) s c ts

/-- Items between commas up to a closing mark, which is taken. A comma may stand before it. -/
def listUntil (close : Mark) (item : Parser α) : Parser (List α) := do
  let items ← loop (fun items : List α => do
    if ← atMark close then return Turn.done items
    let items := items ++ [← item]
    if ← acceptMark .comma then return .again items else return .done items) []
  let _ ← expectMark close
  return items

/-- One item or more between commas. -/
def sepBy (item : Parser α) : Parser (List α) :=
  loop (fun items : List α => do
    let items := items ++ [← item]
    if ← acceptMark .comma then return Turn.again items else return .done items) []

end Parser

end CoScript
