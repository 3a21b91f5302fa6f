import CoScript.Tree.Basic
import CoScript.Tree.Parser.Basic

/-!
# The recursive rules of the grammar

Every rule that a smaller part of the input may call again is a field of a record, and the grammar
is written over such a record. A record for one more level of nesting is then made from the one
below it.
-/

namespace CoScript

/-- Parsers for the rules that refer to each other in circles. -/
structure Rules where
  statement : Parser Stmt
  /-- an expression; a comma ends it -/
  assignment : Parser Expr
  /-- operands joined by binary operators that bind at least so tightly -/
  binary : Nat → Parser Expr
  /-- an operand with the operators before and after it -/
  unary : Parser Expr
  /-- an expression that starts with `new` -/
  construction : Parser Expr
  /-- a type, of which nothing is kept -/
  type : Parser Unit

/-- The rules that give up at once. -/
def Rules.exhausted : Rules where
  statement := Parser.tooDeep
  assignment := Parser.tooDeep
  binary _ := Parser.tooDeep
  unary := Parser.tooDeep
  construction := Parser.tooDeep
  type := Parser.tooDeep

end CoScript
