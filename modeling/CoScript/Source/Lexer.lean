import CoScript.Source.Token
import CoScript.Text.Quoted
import CoScript.Text.Visible

/-!
# From text to tokens

A text is read as gaps and lexemes in turn. A gap is any run of blanks, line comments and closed
block comments; a lexeme is the longest name, number, string or mark that starts at its place. The
reading ends at the end of the text, or at the first place where neither can start.

Results:
* `tokenize`: the tokens of a text and how they end.
-/

namespace CoScript

/-- Why no lexeme starts at a place. -/
inductive LexError.Cause where
  | openComment
  | openString
  | unexpected (c : Char)
  deriving Repr, DecidableEq

/-- A place where no lexeme starts. -/
structure LexError where
  cause : LexError.Cause
  pos : Position
  deriving Repr, DecidableEq

/-- The message of a lexical error. -/
def LexError.Cause.message : LexError.Cause → String
  | .openComment => "unterminated block comment"
  | .openString => "unterminated string literal"
  | .unexpected c => "unexpected character " ++ Text.visible (String.ofList [c])

/-- How the tokens of a text end: at its end, or at an error. -/
inductive Ending where
  | complete (pos : Position)
  | broken (error : LexError)
  deriving Repr, DecidableEq

/-- The tokens of a text, without an end mark, and how they end. -/
structure Tokens where
  list : List Token
  ending : Ending
  deriving Repr

namespace Lexer

/-! ## Gaps -/

/-- The blanks between lexemes. -/
def isBlank (c : Char) : Bool :=
  c = ' ' || c = '\t' || c = '\r' || c = '\n' || c = '\x0c'

/-- Whether a block comment that is open here is closed later. -/
def closes : List Char → Bool
  | [] => false
  | '*' :: '/' :: _ => true
  | _ :: r => closes r

/-- What a gap is inside of. -/
inductive GapMode where
  | blanks
  | lineComment
  | blockComment

/-- The longest gap at the start of a text, and the text after it. A block comment that is never
    closed is not part of a gap. -/
def gap : GapMode → List Char → List Char × List Char
  | _, [] => ([], [])
  | .lineComment, c :: r =>
    let (g, rest) := gap (if c = '\n' then .blanks else .lineComment) r
    (c :: g, rest)
  | .blockComment, [c] => ([c], [])
  | .blockComment, c :: d :: r =>
    if c = '*' && d = '/' then
      let (g, rest) := gap .blanks r
      (c :: d :: g, rest)
    else
      let (g, rest) := gap .blockComment (d :: r)
      (c :: g, rest)
  | .blanks, [c] => if isBlank c then ([c], []) else ([], [c])
  | .blanks, c :: d :: r =>
    if isBlank c then
      let (g, rest) := gap .blanks (d :: r)
      (c :: g, rest)
    else if c = '/' && d = '/' then
      let (g, rest) := gap .lineComment r
      (c :: d :: g, rest)
    else if c = '/' && d = '*' && closes r then
      let (g, rest) := gap .blockComment r
      (c :: d :: g, rest)
    else ([], c :: d :: r)

/-! ## Lexemes -/

/-- The characters that a name may start with. -/
def isNameStart (c : Char) : Bool :=
  c.isAlpha || c = '_' || c = '$'

/-- The characters that a name may go on with. -/
def isNamePart (c : Char) : Bool :=
  isNameStart c || c.isDigit

/-- The characters up to an unescaped quote `q` on the same line, and the text after the quote. -/
def stringBody (q : Char) : List Char → Option (List Char × List Char)
  | [] => none
  | [c] => if c = q then some ([], []) else none
  | c :: d :: r =>
    if c = q then some ([], d :: r)
    else if c = '\n' then none
    else if c = '\\' then
      if d = '\n' then none
      else (stringBody q r).map fun (body, rest) => (c :: d :: body, rest)
    else (stringBody q (d :: r)).map fun (body, rest) => (c :: body, rest)

/-- The lexeme of a name: a keyword or an identifier. -/
def wordLexeme (cs : List Char) : Lexeme :=
  let s := String.ofList cs
  match Keyword.ofText? s with
  | some k => .keyword k
  | none => .identifier s

/-- A fraction at the start of a text: a point and at least one digit. -/
def fraction : List Char → List Char × List Char
  | '.' :: d :: r =>
    if d.isDigit then
      let (digits, rest) := r.span Char.isDigit
      ('.' :: d :: digits, rest)
    else ([], '.' :: d :: r)
  | cs => ([], cs)

/-- A lexeme, the characters it was read from, and the text after them. -/
structure Scanned where
  lexeme : Lexeme
  taken : List Char
  rest : List Char

/-- The lexeme at the start of a text. -/
def lexeme? : List Char → Option Scanned
  | [] => none
  | c :: r =>
    if isNameStart c then
      let (name, rest) := r.span isNamePart
      some ⟨wordLexeme (c :: name), c :: name, rest⟩
    else if c.isDigit then
      let (whole, rest) := r.span Char.isDigit
      let (part, rest) := fraction rest
      some ⟨.number (Decimal.ofDecimal (c :: whole) (part.drop 1)), c :: whole ++ part, rest⟩
    else if c = '"' || c = '\'' then
      (stringBody c r).map fun (body, rest) =>
        ⟨.string (String.ofList (Text.unescape body)), c :: body ++ [c], rest⟩
    else if c = '/' && r.head? = some '*' then none
    else (Mark.scan? (c :: r)).map fun (m, rest) => ⟨.mark m, m.spelling, rest⟩

/-- Why no lexeme starts with the characters. -/
def failure (c : Char) : LexError.Cause :=
  if c = '/' then .openComment
  else if c = '"' || c = '\'' then .openString
  else .unexpected c

/-- The tokens of a text that starts at a position. Each lexeme takes at least one character, so
    `fuel` above the length of the text never runs out. -/
def tokensFrom : Nat → Position → List Char → Tokens
  | 0, pos, _ => ⟨[], .complete pos⟩
  | fuel + 1, pos, cs =>
    let (skipped, rest) := gap .blanks cs
    let pos := pos.after skipped
    match rest with
    | [] => ⟨[], .complete pos⟩
    | c :: _ =>
      match lexeme? rest with
      | none => ⟨[], .broken ⟨failure c, pos⟩⟩
      | some s =>
        let token := ⟨s.lexeme, pos, skipped.contains '\n'⟩
        let tokens := tokensFrom fuel (pos.after s.taken) s.rest
        ⟨token :: tokens.list, tokens.ending⟩

end Lexer

/-- The tokens of a text and how they end. -/
def tokenize (source : String) : Tokens :=
  let cs := source.toList
  Lexer.tokensFrom (cs.length + 1) .start cs

/-- The token that stands for the end of the input. -/
def Token.endOfInput (pos : Position) : Token :=
  ⟨.endOfInput, pos, true⟩

end CoScript
