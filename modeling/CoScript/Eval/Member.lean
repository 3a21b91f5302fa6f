import CoScript.Eval.World
import CoScript.Store.Render

/-!
# Members and indices

Results:
* `getMember`, `getIndex`: what is read off a value by a name or by a key.
* `setMember`, `setIndex`: what is written.
-/

namespace CoScript

/-- The index that a number is. -/
def indexOf? (x : Float) : Option Nat :=
  Decimal.natOfFloat? x

/-- A number that counts. -/
def Value.ofNat (n : Nat) : Value :=
  .number (Float.ofNat n)

/-- The text that a key adds to a string. -/
def keyDisplay (ps : Promises) (key : Value) : Effect String := do
  Effect.ofOption ((← Effect.heap).display ps key)

/-- A member that arrays have of themselves. -/
def arrayMember (r : Ref .array) (attr : String) : Effect Value := do
  if attr = "length" then return .ofNat ((← Effect.heap).array r).size
  else
    match ArrayMethod.ofName? attr with
    | some m => Effect.newFunction (.arrayMethod m r)
    | none => return .undefined

/-- A member that strings have of themselves. -/
def stringMember (s : String) (attr : String) : Value :=
  if attr = "length" then .ofNat s.length else .undefined

/-- A member of an instance: its own field, else a method of its class bound to it. -/
def instanceMember (r : Ref .inst) (attr : String) : Effect Value := do
  let h ← Effect.heap
  let i := h.instanceOf r
  match i.fields.get? attr with
  | some v => return v
  | none =>
    match h.method? i.cls attr with
    | some m => Effect.newFunction (.bound m r)
    | none => return .undefined

/-- What is read off a value by a name. -/
def getMember (v : Value) (attr : String) (pos : Position) : Effect Value := do
  match v with
  | .inst r => instanceMember r attr
  | .object r => return (((← Effect.heap).object r).get? attr).getD .undefined
  | .undefined | .null => Effect.fault (.memberRead attr v.type) (some pos)
  | .cls r =>
    let h ← Effect.heap
    return if attr = "name" then .string (h.cls r).name else .undefined
  | .function r =>
    let h ← Effect.heap
    return if attr = "name" then .string ((h.functionName r).getD "") else .undefined
  | .array r => arrayMember r attr
  | .string s => return stringMember s attr
  | .bool _ | .number _ | .promise _ => return .undefined

/-- A member written by a name. -/
def setMember (v : Value) (attr : String) (new : Value) (pos : Position) : Effect Unit := do
  match v with
  | .inst r => Effect.modifyHeap (·.setField r attr new)
  | .object r => Effect.modifyHeap (·.setProperty r attr new)
  | v => Effect.fault (.memberWrite attr v.type) (some pos)

/-- The character of a string at an index. -/
def charAt? (s : String) (n : Nat) : Option Value :=
  (s.toList[n]?).map fun c => .string (String.ofList [c])

/-- What is read off a value by a key. -/
def getIndex (ps : Promises) (v key : Value) (pos : Position) : Effect Value := do
  match v, key with
  | .array r, .number x =>
    let items := (← Effect.heap).array r
    return ((indexOf? x).bind (items[·]?)).getD .undefined
  | .string s, .number x => return ((indexOf? x).bind (charAt? s)).getD .undefined
  | .array r, key => arrayMember r (← keyDisplay ps key)
  | .string s, key => return stringMember s (← keyDisplay ps key)
  | .object _, key | .inst _, key => getMember v (← keyDisplay ps key) pos
  | v, _ => Effect.fault (.indexRead v.type) (some pos)

/-- Items with a value at an index, with `undefined` between the old end and it. -/
def putItem (n : Nat) (new : Value) (items : Array Value) : Array Value :=
  if n < items.size then items.setIfInBounds n new
  else (items ++ Array.replicate (n - items.size) Value.undefined).push new

/-- An item written by a key. -/
def setIndex (ps : Promises) (v key new : Value) (pos : Position) : Effect Unit := do
  match v with
  | .array r =>
    let n? := match key with
      | .number x => indexOf? x
      | _ => none
    match n? with
    | some n => Effect.modifyHeap (·.modifyArray r (putItem n new))
    | none =>
      let shown ← Effect.ofOption ((← Effect.heap).render ps key true)
      Effect.fault (.arrayIndex shown) (some pos)
  | .object _ | .inst _ => setMember v (← keyDisplay ps key) new pos
  | v => Effect.fault (.indexWrite v.type) (some pos)

end CoScript
