import CoScript.Eval.Call
import CoScript.Eval.Operators

/-!
# Assignments

A target is evaluated once: first the object, then the key. A compound assignment reads the place
before it evaluates its operand.

Results:
* `readPlace`, `writePlace`: the value of a place.
* `usePlace`: an assignment or a step, once the place is known.
-/

namespace CoScript

open Effect

/-- The value of a place. -/
def readPlace (ps : Promises) : Place → Effect Value
  | .variable name scope pos => lookup scope name (some pos)
  | .member object attr pos => getMember object attr pos
  | .element object key pos => getIndex ps object key pos

/-- Writes a place. -/
def writePlace (ps : Promises) (v : Value) : Place → Effect Unit
  | .variable name scope pos => assign scope name v pos
  | .member object attr pos => setMember object attr v pos
  | .element object key pos => setIndex ps object key v pos

/-- Reads, steps and writes a place; gives the number before or after. -/
def stepPlace (ps : Promises) (place : Place) (op : UpdateOp) (before : Bool) (pos : Position) :
    Effect Value := do
  let old ← readPlace ps place
  let (old, new) ← (old.step op pos : Except Halt (Float × Float))
  writePlace ps (.number new) place
  return .number (if before then new else old)

/-- An assignment or a step, once the place is known. -/
def usePlace (ps : Promises) (place : Place) (use : PlaceUse) (scope : Ref .scope)
    (stack : List Frame) : Effect Move := do
  match use with
  | .update op before pos => return .ret (← stepPlace ps place op before pos) stack
  | .assign op value pos =>
    match op.operation? with
    | none => return .go (.eval value scope) (.write place :: stack)
    | some op =>
      let old ← readPlace ps place
      return .go (.eval value scope) (.combine place op old pos :: stack)

/-- Starts to evaluate a target. The parser admits no other than the three kinds of target. -/
def evalTarget (ps : Promises) (target : Expr) (use : PlaceUse) (scope : Ref .scope)
    (stack : List Frame) : Effect Move := do
  match target with
  | .name pos ident => usePlace ps (.variable ident scope pos) use scope stack
  | .member pos object attr =>
    return .go (.eval object scope) (.placeMember attr pos use scope :: stack)
  | .index pos object key =>
    return .go (.eval object scope) (.placeKey key pos use scope :: stack)
  | _ => abort .callDepth

end CoScript
