import CoScript.Decimal.Notation
import CoScript.Fault
import CoScript.Task.Basic

/-!
# Values

Plain values are held directly; everything with an identity is a reference into the heap, or the
identity of a task.

Results:
* `Value.type`, `Value.isTruthy`, `Value.strictEquals`: what scripts see of a value alone.
-/

namespace CoScript

/-- What a heap cell holds. -/
inductive CellKind where
  | scope | array | object | inst | cls | function
  deriving Repr, DecidableEq

/-- A reference to a heap cell of a kind. -/
structure Ref (k : CellKind) where
  index : Nat
  deriving Repr, DecidableEq, Inhabited

theorem Ref.index_inj {k : CellKind} {r r' : Ref k} : r.index = r'.index ↔ r = r' := by
  rw [Ref.mk.injEq]

/-- A value of a script. -/
inductive Value where
  | undefined
  | null
  | bool (value : Bool)
  | number (value : Float)
  | string (value : String)
  | array (ref : Ref .array)
  | object (ref : Ref .object)
  | inst (ref : Ref .inst)
  | cls (ref : Ref .cls)
  | promise (id : TaskId)
  | function (ref : Ref .function)
  deriving Repr

namespace Value

instance : Inhabited Value := ⟨null⟩

/-- The type of a value. -/
def type : Value → ValueType
  | undefined => .undefined
  | null => .null
  | bool _ => .boolean
  | number _ => .number
  | string _ => .string
  | array _ => .array
  | object _ | .inst _ => .object
  | cls _ => .cls
  | promise _ => .promise
  | function _ => .function

/-- Whether a condition holds of a value: not of the empty values, zero, `NaN` and the empty
    string. -/
def isTruthy : Value → Bool
  | undefined | null => false
  | bool b => b
  | number x => !(x == 0 || x.isNaN)
  | string s => !s.isEmpty
  | _ => true

/-- Whether there is no value. -/
def isNullish : Value → Bool
  | undefined | null => true
  | _ => false

/-- Equality of two values: by content for plain values, by identity for the rest. -/
def strictEquals : Value → Value → Bool
  | undefined, undefined => true
  | null, null => true
  | bool a, bool b => a == b
  | number a, number b => a == b
  | string a, string b => a == b
  | array a, array b => a = b
  | object a, object b => a = b
  | .inst a, .inst b => a = b
  | cls a, cls b => a = b
  | promise a, promise b => a = b
  | function a, function b => a = b
  | _, _ => false

end Value

end CoScript
