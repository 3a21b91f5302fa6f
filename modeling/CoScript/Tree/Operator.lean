import CoScript.Source.Mark

/-!
# Operators

The operators of expressions, with the marks they are written with and how tightly the binary ones
bind.

Results:
* `BinaryOp.precedence`: six levels, from `||` up to `*`.
-/

namespace CoScript

/-- An operator between two operands. -/
inductive BinaryOp where
  | or | and | looseEqual | looseNotEqual | strictEqual | strictNotEqual
  | less | lessEqual | greater | greaterEqual | add | subtract | multiply | divide | remainder
  deriving Repr, DecidableEq

namespace BinaryOp

/-- The mark of a binary operator. -/
def mark : BinaryOp → Mark
  | .or => .orOr
  | .and => .andAnd
  | .looseEqual => .looseEqual
  | .looseNotEqual => .looseNotEqual
  | .strictEqual => .strictEqual
  | .strictNotEqual => .strictNotEqual
  | .less => .less
  | .lessEqual => .lessEqual
  | .greater => .greater
  | .greaterEqual => .greaterEqual
  | .add => .plus
  | .subtract => .minus
  | .multiply => .star
  | .divide => .slash
  | .remainder => .percent

/-- All binary operators. -/
def all : List BinaryOp := [
  .or, .and, .looseEqual, .looseNotEqual, .strictEqual, .strictNotEqual, .less, .lessEqual,
  .greater, .greaterEqual, .add, .subtract, .multiply, .divide, .remainder]

/-- The binary operator that a mark writes. -/
def ofMark? (m : Mark) : Option BinaryOp :=
  all.find? (·.mark = m)

/-- The text of a binary operator. -/
def text (op : BinaryOp) : String :=
  op.mark.text

/-- How tightly a binary operator binds; all of them associate to the left. -/
def precedence : BinaryOp → Nat
  | .or => 1
  | .and => 2
  | .looseEqual | .looseNotEqual | .strictEqual | .strictNotEqual => 3
  | .less | .lessEqual | .greater | .greaterEqual => 4
  | .add | .subtract => 5
  | .multiply | .divide | .remainder => 6

theorem ofMark_mark (op : BinaryOp) : ofMark? op.mark = some op := by
  cases op <;> decide

end BinaryOp

/-- An operator before its operand. -/
inductive UnaryOp where
  | not | negate | plus | discard
  deriving Repr, DecidableEq

/-- The text of a unary operator. -/
def UnaryOp.text : UnaryOp → String
  | .not => "!"
  | .negate => "-"
  | .plus => "+"
  | .discard => "void"

/-- An operator that steps a target by one. -/
inductive UpdateOp where
  | increment | decrement
  deriving Repr, DecidableEq

/-- The mark of a stepping operator. -/
def UpdateOp.mark : UpdateOp → Mark
  | .increment => .increment
  | .decrement => .decrement

/-- The text of a stepping operator. -/
def UpdateOp.text (op : UpdateOp) : String :=
  op.mark.text

/-- An operator that writes a target. -/
inductive AssignOp where
  | set | add | subtract | multiply | divide | remainder
  deriving Repr, DecidableEq

namespace AssignOp

/-- The mark of an assignment operator. -/
def mark : AssignOp → Mark
  | .set => .assign
  | .add => .plusAssign
  | .subtract => .minusAssign
  | .multiply => .timesAssign
  | .divide => .divideAssign
  | .remainder => .remainderAssign

/-- All assignment operators. -/
def all : List AssignOp := [.set, .add, .subtract, .multiply, .divide, .remainder]

/-- The assignment operator that a mark writes. -/
def ofMark? (m : Mark) : Option AssignOp :=
  all.find? (·.mark = m)

/-- The text of an assignment operator. -/
def text (op : AssignOp) : String :=
  op.mark.text

/-- The binary operator that combines the old value with the operand, if there is one. -/
def operation? : AssignOp → Option BinaryOp
  | .set => none
  | .add => some .add
  | .subtract => some .subtract
  | .multiply => some .multiply
  | .divide => some .divide
  | .remainder => some .remainder

end AssignOp

/-- How a variable is declared. -/
inductive DeclKind where
  | constant | block | function
  deriving Repr, DecidableEq

/-- The keyword of a declaration. -/
def DeclKind.text : DeclKind → String
  | .constant => "const"
  | .block => "let"
  | .function => "var"

end CoScript
