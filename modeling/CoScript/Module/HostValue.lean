import CoScript.Module.Json
import CoScript.Store.Heap

/-!
# Values of the host

What the host passes to a script: its own numbers, arrays and objects, functions known by name, and
values that the heap holds already. On the way into the heap arrays and objects are copied, also
those that the heap holds already, while classes, instances, functions and promises stay what they
are. A whole number becomes the nearest double, and must not be beyond all of them.

Results:
* `HostValue.toValue`: a host value in the heap.
-/

namespace CoScript

/-- A value of the host. -/
inductive HostValue where
  | value (value : Value)
  | whole (value : Int)
  | array (items : List HostValue)
  | object (fields : List (String × HostValue))
  | function (name : String)
  deriving Repr, Inhabited

/-- What a module gives to those who import it. -/
abbrev Exports := Ordered HostValue

/-- A computation in the heap, or why it gives up. -/
abbrev InHeap := StateT Heap (Except FaultCause)

namespace InHeap

/-- A new array as a value. -/
def array (items : List Value) : InHeap Value := fun h =>
  let (r, h) := h.newArray items.toArray
  .ok (.array r, h)

/-- A new object as a value. -/
def object (fields : List (String × Value)) : InHeap Value := fun h =>
  let (r, h) := h.newObject (.ofList fields)
  .ok (.object r, h)

/-- A new function as a value. -/
def function (f : Function) : InHeap Value := fun h =>
  let (r, h) := h.newFunction f
  .ok (.function r, h)

/-- The least whole number that is rounded to none of the doubles. It lies halfway between the
    greatest of them and the next power of two. -/
def wholeLimit : Nat := Nat.pow 2 1024 - Nat.pow 2 970

/-- A whole number as a value. -/
def whole (n : Int) : InHeap Value :=
  if n.natAbs < wholeLimit then pure (.number (Float.ofInt n))
  else throw (.foreign "OverflowError" "int too large to convert to float")

end InHeap

namespace Value

/-- A copy of a value, deep in arrays and objects. It gives up if `fuel` does not last. -/
def copyFrom : Nat → Value → InHeap Value
  | 0, _ => throw .callDepth
  | fuel + 1, v =>
    match v with
    | .array r => do
      let items ← (← get).array r |>.toList.mapM (copyFrom fuel)
      InHeap.array items
    | .object r => do
      let fields ← ((← get).object r).entries.mapM fun e => do
        return (e.1, ← copyFrom fuel e.2)
      InHeap.object fields
    | v => pure v

/-- A copy of a value, deep in arrays and objects. A path longer than their number meets one of them
    twice, and then has no end. -/
def copy (v : Value) : InHeap Value := do
  let h ← get
  v.copyFrom (h.arrays.size + h.objects.size + 1)

end Value

mutual

/-- A host value in the heap. -/
def HostValue.toValue : HostValue → InHeap Value
  | .value v => v.copy
  | .whole n => InHeap.whole n
  | .array items => do InHeap.array (← itemsToValues items)
  | .object fields => do InHeap.object (← fieldsToValues fields)
  | .function name => InHeap.function (.host name)

/-- Host values in the heap. -/
def itemsToValues : List HostValue → InHeap (List Value)
  | [] => pure []
  | v :: r => do
    let v ← v.toValue
    return v :: (← itemsToValues r)

/-- Named host values in the heap. -/
def fieldsToValues : List (String × HostValue) → InHeap (List (String × Value))
  | [] => pure []
  | (k, v) :: r => do
    let v ← v.toValue
    return (k, v) :: (← fieldsToValues r)

end

mutual

/-- A JSON document as a value of the host. -/
def Json.toHost : Json → HostValue
  | .null => .value .null
  | .bool b => .value (.bool b)
  | .whole n => .whole n
  | .float x => .value (.number x)
  | .string s => .value (.string s)
  | .array items => .array (jsonItems items)
  | .object members => .object (jsonMembers members)

/-- JSON documents as values of the host. -/
def jsonItems : List Json → List HostValue
  | [] => []
  | j :: r => j.toHost :: jsonItems r

/-- The members of a JSON object as values of the host. -/
def jsonMembers : List (String × Json) → List (String × HostValue)
  | [] => []
  | (k, j) :: r => (k, j.toHost) :: jsonMembers r

end

end CoScript
