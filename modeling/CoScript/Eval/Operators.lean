import CoScript.Eval.World
import CoScript.Store.Render

/-!
# Operators on values

Results:
* `Value.binary`: an operator between two values.
* `Value.unary`, `Value.step`: an operator on one value.
-/

namespace CoScript

/-- A comparison of two values; `comparable` tells whether one of them is less or they are equal. -/
def BinaryOp.compare (op : BinaryOp) {α : Type} [LT α] [DecidableLT α] (comparable : Bool)
    (a b : α) : Bool :=
  match op with
  | .less => a < b
  | .greater => b < a
  | .lessEqual => comparable && !(b < a)
  | .greaterEqual => comparable && !(a < b)
  | _ => false

/-- The result of an arithmetic operator. -/
def BinaryOp.arithmetic? : BinaryOp → Option (Float → Float → Float)
  | .add => some (· + ·)
  | .subtract => some (· - ·)
  | .multiply => some (· * ·)
  | .divide => some (· / ·)
  | .remainder => some Decimal.remainder
  | _ => none

/-- Whether an operator compares by order. -/
def BinaryOp.isComparison : BinaryOp → Bool
  | .less | .lessEqual | .greater | .greaterEqual => true
  | _ => false

namespace Value

/-- The text of two values joined. -/
def concat (h : Heap) (ps : Promises) (l r : Value) : Except Halt Value :=
  match h.display ps l, h.display ps r with
  | some a, some b => .ok (string (a ++ b))
  | _, _ => .error (.aborted .callDepth)

/-- Two numbers under an operator. -/
def numbers? (op : BinaryOp) (a b : Float) : Option Value :=
  match op.arithmetic? with
  | some f => some (number (f a b))
  | none =>
    if op.isComparison then some (bool (op.compare (!a.isNaN && !b.isNaN) a b)) else none

/-- Whether a value is a string. -/
def isString : Value → Bool
  | string _ => true
  | _ => false

/-- Two values under an operator, both sides of which are evaluated. -/
def binary (h : Heap) (ps : Promises) (op : BinaryOp) (l r : Value) (pos : Position) :
    Except Halt Value :=
  let mismatch : Except Halt Value :=
    .error (.fault (.located (.binaryOperands op l.type r.type) pos))
  match op with
  | .strictEqual | .looseEqual => .ok (bool (l.strictEquals r))
  | .strictNotEqual | .looseNotEqual => .ok (bool (!l.strictEquals r))
  | op =>
    if op = .add && (l.isString || r.isString) then concat h ps l r
    else
      match l, r with
      | number a, number b =>
        match numbers? op a b with
        | some v => .ok v
        | none => mismatch
      | string a, string b =>
        if op.isComparison then .ok (bool (op.compare true a b)) else mismatch
      | _, _ => mismatch

/-- A value under an operator before it. -/
def unary (op : UnaryOp) (v : Value) (pos : Position) : Except Halt Value :=
  match op, v with
  | .not, v => .ok (bool (!v.isTruthy))
  | .discard, _ => .ok undefined
  | .negate, number x => .ok (number (-x))
  | .plus, number x => .ok (number x)
  | op, v => .error (.fault (.located (.unaryOperand op v.type) pos))

/-- A number and the one next to it. -/
def step (op : UpdateOp) (v : Value) (pos : Position) : Except Halt (Float × Float) :=
  match v with
  | number x => .ok (x, match op with
    | .increment => x + 1
    | .decrement => x - 1)
  | v => .error (.fault (.located (.updateOperand op v.type) pos))

end Value

end CoScript
