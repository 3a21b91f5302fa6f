import CoScript.Store.Scopes

/-!
# The heap

Everything with an identity lives in the heap, in one array for each kind of cell, and is never
removed. New cells come last, so a reference made earlier stays good.

Results:
* `Heap.classChain`: a class and the classes above it.
* `Heap.method?`: the method that an instance of a class has under a name.
-/

namespace CoScript

/-- The cells of all kinds. -/
structure Heap where
  scopes : Scopes
  arrays : Array (Array Value)
  objects : Array (Ordered Value)
  instances : Array Instance
  classes : Array Class
  functions : Array Function

namespace Heap

/-- The heap without cells. -/
def empty : Heap := ⟨.empty, #[], #[], #[], #[], #[]⟩

instance : Inhabited Heap := ⟨empty⟩

/-! ## Reading -/

/-- The items of an array. -/
def array (h : Heap) (r : Ref .array) : Array Value :=
  h.arrays.getD r.index #[]

/-- The properties of a plain object. -/
def object (h : Heap) (r : Ref .object) : Ordered Value :=
  h.objects.getD r.index .empty

/-- An instance. -/
def instanceOf (h : Heap) (r : Ref .inst) : Instance :=
  h.instances.getD r.index default

/-- A class. -/
def cls (h : Heap) (r : Ref .cls) : Class :=
  h.classes.getD r.index default

/-- A function. -/
def function (h : Heap) (r : Ref .function) : Function :=
  h.functions.getD r.index default

/-! ## Making -/

/-- A new array. -/
def newArray (h : Heap) (items : Array Value) : Ref .array × Heap :=
  (⟨h.arrays.size⟩, { h with arrays := h.arrays.push items })

/-- A new plain object. -/
def newObject (h : Heap) (fields : Ordered Value) : Ref .object × Heap :=
  (⟨h.objects.size⟩, { h with objects := h.objects.push fields })

/-- A new instance. -/
def newInstance (h : Heap) (i : Instance) : Ref .inst × Heap :=
  (⟨h.instances.size⟩, { h with instances := h.instances.push i })

/-- A new class. -/
def newClass (h : Heap) (c : Class) : Ref .cls × Heap :=
  (⟨h.classes.size⟩, { h with classes := h.classes.push c })

/-- A new function. -/
def newFunction (h : Heap) (f : Function) : Ref .function × Heap :=
  (⟨h.functions.size⟩, { h with functions := h.functions.push f })

/-- A new scope. -/
def newScope (h : Heap) (parent : Option (Ref .scope)) (isFunction : Bool) : Ref .scope × Heap :=
  let (r, scopes) := h.scopes.new parent isFunction
  (r, { h with scopes })

/-- A new scope with the bindings of another. -/
def copyScope (h : Heap) (r : Ref .scope) : Ref .scope × Heap :=
  let (r, scopes) := h.scopes.copy r
  (r, { h with scopes })

/-! ## Changing -/

/-- An array changed by a function. -/
def modifyArray (h : Heap) (r : Ref .array) (f : Array Value → Array Value) : Heap :=
  { h with arrays := h.arrays.modify r.index f }

/-- A property of a plain object written. -/
def setProperty (h : Heap) (r : Ref .object) (name : String) (value : Value) : Heap :=
  { h with objects := h.objects.modify r.index (·.set name value) }

/-- A field of an instance written. -/
def setField (h : Heap) (r : Ref .inst) (name : String) (value : Value) : Heap :=
  { h with
    instances := h.instances.modify r.index fun i => { i with fields := i.fields.set name value } }

/-- Names a function that has no name yet, if the value is one. -/
def nameFunction (h : Heap) (v : Value) (name : String) : Heap :=
  match v with
  | .function r =>
    { h with
      functions := h.functions.modify r.index fun f =>
        match f with
        | .closure c => .closure { c with name := some (c.name.getD name) }
        | f => f }
  | _ => h

/-! ## Classes -/

/-- A class and at most `n` classes above it, from below. -/
def climbClasses (h : Heap) : Nat → Ref .cls → List (Ref .cls)
  | 0, r => [r]
  | n + 1, r =>
    match (h.cls r).superclass with
    | some s => r :: climbClasses h n s
    | none => [r]

/-- A class and all classes above it, from below. A class is younger than its superclass, so there
    are no more of them than its index. -/
def classChain (h : Heap) (r : Ref .cls) : List (Ref .cls) :=
  h.climbClasses r.index r

/-- The method of a class or of the nearest class above it that has one. -/
def method? (h : Heap) (r : Ref .cls) (name : String) : Option (Ref .function) :=
  (h.classChain r).findSome? fun c => (h.cls c).methods.get? name

/-! ## Functions -/

/-- The name of a function, if it has one. -/
def functionName (h : Heap) (r : Ref .function) : Option String :=
  match h.function r with
  | .print => some "print"
  | .arrayMethod m _ => some ("Array." ++ m.name)
  | .host name => some name
  | .closure c => c.name
  | .bound m _ =>
    match h.function m with
    | .closure c => c.name
    | _ => none

end Heap

end CoScript
