import CoScript.Store.Heap
import CoScript.Text.Layout
import CoScript.Text.Quoted

/-!
# The text of values

Two texts of a value: the one that `print` shows, with the structure of the value, and the one that
`+` and `join` make a string with. A value that contains itself shows as `[Circular]` where it
comes again; a chain of promises that leads back to itself has no text at all, nor has the joined
text of an array that contains itself.

Results:
* `Heap.render`: the text that shows a value.
* `Heap.display`: the text that a value adds to a string.
-/

namespace CoScript

open Text

/-- The states of the promises that values may refer to. -/
structure Promises where
  count : Nat
  state : TaskId → TaskState Value

/-- The promises of an array of tasks. -/
def Promises.ofTasks {β : Type} (tasks : Array (Task β Value)) : Promises :=
  ⟨tasks.size, fun id =>
    match tasks[id.index]? with
    | some t => t.state
    | none => .pending⟩

/-- A value that contains others. -/
inductive Container where
  | array (ref : Ref .array)
  | object (ref : Ref .object)
  | inst (ref : Ref .inst)
  deriving Repr, DecidableEq

/-- The text of entries between braces. -/
def fieldsText (entries : List (String × String)) : String :=
  if entries.isEmpty then "\x7b\x7d"
  else braces (join ", " (entries.map fun e => e.1 ++ ": " ++ e.2))

/-- The making of a text, with the containers that are marked meanwhile. It may have no end. -/
abbrev Rendering := OptionT (StateM (List Container))

/-- Makes the text of a container, which is marked until the making of its text is over, also if
    that has no end. A container that is marked already shows as such. -/
def marking (c : Container) (text : Rendering String) : Rendering String :=
  OptionT.mk do
    if (← get).contains c then return some "[Circular]"
    modify (c :: ·)
    let out ← text.run
    modify (·.erase c)
    return out

namespace Heap

/-- The text that shows a value, made with one set of marked containers for the whole of it. Nothing
    if `fuel` does not last. -/
def renderMarking (h : Heap) (ps : Promises) :
    Nat → Bool → Value → StateM (List Container) (Option String)
  | 0, _, _ => return none
  | fuel + 1, nested, v =>
    let part (w : Value) : Rendering String := OptionT.mk (renderMarking h ps fuel true w)
    let entries (m : Ordered Value) : Rendering String := do
      let texts ← m.entries.mapM fun e => return (e.1, ← part e.2)
      return fieldsText texts
    let whole : Rendering String :=
      match v with
      | .undefined => return "undefined"
      | .null => return "null"
      | .bool b => return if b then "true" else "false"
      | .number x => return Decimal.numberText x
      | .string s => return if nested then quote s else s
      | .array r => marking (.array r) do
        let items ← (h.array r).toList.mapM part
        return "[" ++ join ", " items ++ "]"
      | .object r => marking (.object r) (entries (h.object r))
      | .inst r => marking (.inst r) do
        let i := h.instanceOf r
        return (h.cls i.cls).name ++ " " ++ (← entries i.fields)
      | .cls r => return "[class " ++ (h.cls r).name ++ "]"
      | .promise id =>
        match ps.state id with
        | .pending => return "Promise \x7b <pending> \x7d"
        | .failed f => return "Promise \x7b <rejected> " ++ f.cause.kind ++ " \x7d"
        | .fulfilled w => return "Promise \x7b " ++ (← part w) ++ " \x7d"
        | .thrown w _ => return "Promise \x7b <rejected> " ++ (← part w) ++ " \x7d"
      | .function r =>
        let name := (h.functionName r).getD ""
        return "[Function: " ++ (if name.isEmpty then "anonymous" else name) ++ "]"
    whole.run

/-- The text that shows a value while the containers of `path` are marked. Nothing if `fuel` does
    not last. -/
def renderFrom (h : Heap) (ps : Promises) (fuel : Nat) (path : List Container) (nested : Bool)
    (v : Value) : Option String :=
  ((h.renderMarking ps fuel nested v).run path).1

/-- How many containers there are. -/
def containerCount (h : Heap) : Nat :=
  h.arrays.size + h.objects.size + h.instances.size

/-- Enough fuel for any text: a path meets each container at most once, and between two of them
    each promise at most once unless it goes on for ever. -/
def renderFuel (h : Heap) (ps : Promises) : Nat :=
  (h.containerCount + 1) * (ps.count + 1) + 1

/-- The text that shows a value, with quotes around a string if it is nested. -/
def render (h : Heap) (ps : Promises) (v : Value) (nested : Bool) : Option String :=
  h.renderFrom ps (h.renderFuel ps) [] nested v

/-- The text that a value adds to a string. Nothing if `fuel` does not last. -/
def displayFrom (h : Heap) (ps : Promises) : Nat → Value → Option String
  | 0, _ => none
  | fuel + 1, v =>
    match v with
    | .array r => do
      let items ← (h.array r).toList.mapM fun w =>
        if w.isNullish then some "" else displayFrom h ps fuel w
      return join "," items
    | .object _ | .inst _ => some "[object Object]"
    | v => h.render ps v false

/-- The text that a value adds to a string. A path through arrays that is longer than their number
    meets one of them twice, and then has no end. -/
def display (h : Heap) (ps : Promises) (v : Value) : Option String :=
  h.displayFrom ps (h.arrays.size + 1) v

/-- The text of items with a separator between them; one that is missing adds nothing. -/
def joinItems (h : Heap) (ps : Promises) (separator : String) (items : Array Value) :
    Option String := do
  let texts ← items.toList.mapM fun w => if w.isNullish then some "" else h.display ps w
  return join separator texts

end Heap

end CoScript
