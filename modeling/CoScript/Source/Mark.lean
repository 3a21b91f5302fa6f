/-!
# Punctuation

The marks of the language, longest first, so that the first one that a text starts with is the
longest.

Results:
* `Mark.scan?`: the longest mark at the start of a text.
-/

namespace CoScript

/-- A punctuation mark. -/
inductive Mark where
  | strictEqual | strictNotEqual | arrow | lessEqual | greaterEqual | looseEqual | looseNotEqual
  | increment | decrement | andAnd | orOr | plusAssign | minusAssign | timesAssign | divideAssign
  | remainderAssign | minus | plus | star | slash | percent | less | greater | assign | bang
  | openParen | closeParen | openBrace | closeBrace | openBracket | closeBracket | comma | dot
  | semicolon | colon | question | bar | ampersand
  deriving Repr, DecidableEq

namespace Mark

/-- The characters of a mark. -/
def spelling : Mark → List Char
  | .strictEqual => ['=', '=', '=']
  | .strictNotEqual => ['!', '=', '=']
  | .arrow => ['=', '>']
  | .lessEqual => ['<', '=']
  | .greaterEqual => ['>', '=']
  | .looseEqual => ['=', '=']
  | .looseNotEqual => ['!', '=']
  | .increment => ['+', '+']
  | .decrement => ['-', '-']
  | .andAnd => ['&', '&']
  | .orOr => ['|', '|']
  | .plusAssign => ['+', '=']
  | .minusAssign => ['-', '=']
  | .timesAssign => ['*', '=']
  | .divideAssign => ['/', '=']
  | .remainderAssign => ['%', '=']
  | .minus => ['-']
  | .plus => ['+']
  | .star => ['*']
  | .slash => ['/']
  | .percent => ['%']
  | .less => ['<']
  | .greater => ['>']
  | .assign => ['=']
  | .bang => ['!']
  | .openParen => ['(']
  | .closeParen => [')']
  | .openBrace => ['{']
  | .closeBrace => ['}']
  | .openBracket => ['[']
  | .closeBracket => [']']
  | .comma => [',']
  | .dot => ['.']
  | .semicolon => [';']
  | .colon => [':']
  | .question => ['?']
  | .bar => ['|']
  | .ampersand => ['&']

/-- The text of a mark. -/
def text (m : Mark) : String :=
  String.ofList m.spelling

/-- All marks, longest first. -/
def all : List Mark := [
  .strictEqual, .strictNotEqual, .arrow, .lessEqual, .greaterEqual, .looseEqual, .looseNotEqual,
  .increment, .decrement, .andAnd, .orOr, .plusAssign, .minusAssign, .timesAssign, .divideAssign,
  .remainderAssign, .minus, .plus, .star, .slash, .percent, .less, .greater, .assign, .bang,
  .openParen, .closeParen, .openBrace, .closeBrace, .openBracket, .closeBracket, .comma, .dot,
  .semicolon, .colon, .question, .bar, .ampersand]

/-- The longest mark that a text starts with, and the text after it. -/
def scan? (cs : List Char) : Option (Mark × List Char) :=
  all.findSome? fun m => (m.spelling.isPrefixOf? cs).map (m, ·)

end Mark

end CoScript
