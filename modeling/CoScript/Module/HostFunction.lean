import CoScript.Module.HostValue
import CoScript.Store.Render
import CoScript.Task.Machine

/-!
# Functions of the host

A function of the host sees its arguments, the heap, the states of promises, and what the functions
of the host remember. It may print, remember something else, make arrays and objects, and change
what arrays, objects and instances hold. It makes no code: scopes, classes and functions stay as
they are.

Results:
* `HostFunction`: a function of the host.
* `Heap.changeAll`: the heap after what such a function did to it.
-/

namespace CoScript

/-- What a function of the host does to the heap. -/
inductive HeapChange where
  | newArray (items : Array Value)
  | newObject (fields : Ordered Value)
  | setItems (array : Ref .array) (items : Array Value)
  | setProperties (object : Ref .object) (fields : Ordered Value)
  | setFields (target : Ref .inst) (fields : Ordered Value)
  deriving Repr

namespace Heap

/-- A heap after a change. -/
def change (h : Heap) : HeapChange → Heap
  | .newArray items => (h.newArray items).2
  | .newObject fields => (h.newObject fields).2
  | .setItems r items => h.modifyArray r fun _ => items
  | .setProperties r fields => { h with objects := h.objects.modify r.index fun _ => fields }
  | .setFields r fields =>
    { h with instances := h.instances.modify r.index fun i => { i with fields } }

/-- A heap after changes, the first one first. -/
def changeAll (h : Heap) (changes : List HeapChange) : Heap :=
  changes.foldl change h

/-- Changes leave all code alone. -/
theorem changeAll_code (h : Heap) (changes : List HeapChange) :
    (h.changeAll changes).functions = h.functions ∧ (h.changeAll changes).classes = h.classes ∧
      (h.changeAll changes).scopes = h.scopes := by
  unfold changeAll
  induction changes generalizing h with
  | nil => exact ⟨rfl, rfl, rfl⟩
  | cons c changes ih =>
    obtain ⟨hf, hc, hs⟩ := ih (h.change c)
    rw [List.foldl_cons, hf, hc, hs]
    cases c <;> exact ⟨rfl, rfl, rfl⟩

end Heap

/-- What a function of the host sees. -/
structure HostCall where
  args : List Value
  heap : Heap
  promises : Promises
  /-- what the functions of the host remember -/
  memory : HostValue

/-- What a function of the host does. -/
structure HostAnswer where
  /-- changes of the heap, the first one first -/
  changes : List HeapChange
  printed : String
  /-- what the functions of the host remember from now on -/
  memory : HostValue
  /-- a value, a fault, or a failure of the host's own -/
  result : Except Halt HostValue

/-- A function of the host. -/
abbrev HostFunction := HostCall → HostAnswer

end CoScript
