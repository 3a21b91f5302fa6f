import CoScript.Decimal.Notation
import CoScript.Source.Keyword
import CoScript.Source.Mark
import CoScript.Source.Position

/-!
# Tokens

A token is a lexeme with the position of its first character and the knowledge whether a line break
stands before it.

Results:
* `Lexeme.text`: the spelling of a lexeme in messages.
-/

namespace CoScript

/-- What a token says. -/
inductive Lexeme where
  | identifier (name : String)
  | keyword (word : Keyword)
  | number (value : Float)
  | string (value : String)
  | mark (m : Mark)
  | endOfInput
  deriving Repr, Inhabited

namespace Lexeme

/-- The spelling of a lexeme in messages. -/
def text : Lexeme → String
  | .identifier name => name
  | .keyword word => word.text
  | .number value => Decimal.numberText value
  | .string value => "\"" ++ value ++ "\""
  | .mark m => m.text
  | .endOfInput => "end of input"

/-- The word for the kind of a lexeme. -/
def kind : Lexeme → String
  | .identifier _ => "identifier"
  | .keyword _ => "keyword"
  | .number _ => "number"
  | .string _ => "string"
  | .mark _ => "punctuation"
  | .endOfInput => "end-of-input"

/-- The name that a lexeme gives where a name is expected. -/
def name? : Lexeme → Option String
  | .identifier name => some name
  | .keyword word => if word.isContextual then some word.text else none
  | _ => none

/-- The name that a lexeme gives where any word may stand. -/
def word? : Lexeme → Option String
  | .identifier name => some name
  | .keyword word => some word.text
  | _ => none

/-- Whether a lexeme is a given mark. -/
def isMark (l : Lexeme) (m : Mark) : Bool :=
  match l with
  | .mark n => n = m
  | _ => false

/-- Whether a lexeme is a given keyword. -/
def isKeyword (l : Lexeme) (k : Keyword) : Bool :=
  match l with
  | .keyword w => w = k
  | _ => false

/-- Whether nothing follows. -/
def isEnd : Lexeme → Bool
  | .endOfInput => true
  | _ => false

end Lexeme

/-- A lexeme in its place. -/
structure Token where
  lexeme : Lexeme
  pos : Position
  /-- whether a line break stands between this token and the one before it -/
  afterBreak : Bool
  deriving Repr, Inhabited

end CoScript
