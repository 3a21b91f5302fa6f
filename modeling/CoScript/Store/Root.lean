import CoScript.Store.Heap

/-!
# The root scope

The scope around all programs. It binds the names that every script knows as constants, and further
names that a host adds.

Results:
* `Heap.newRoot`: a root scope.
-/

namespace CoScript

/-- The names that every script knows, with the function that prints. -/
def builtins (print : Ref .function) : List (String × Binding) :=
  [("print", ⟨.function print, true⟩), ("undefined", ⟨.undefined, true⟩),
    ("NaN", ⟨.number (0.0 / 0.0), true⟩), ("Infinity", ⟨.number (1.0 / 0.0), true⟩),
    ("this", ⟨.undefined, true⟩)]

namespace Heap

/-- Binds names in a scope. -/
def bindAll (h : Heap) (r : Ref .scope) (bindings : List (String × Binding)) : Heap :=
  { h with scopes := bindings.foldl (fun s e => s.bind r e.1 e.2) h.scopes }

/-- A scope with nothing around it that binds the names every script knows. -/
def newRoot (h : Heap) : Ref .scope × Heap :=
  let (print, h) := h.newFunction .print
  let (r, h) := h.newScope none true
  (r, h.bindAll r (builtins print))

/-- A scope of a program inside a root that binds further names too. A further name that every
    script knows keeps its first meaning. -/
def newGlobals (h : Heap) (names : List (String × Value)) : Ref .scope × Heap :=
  let (root, h) := h.newRoot
  let known := (h.scopes.get root).bindings
  let further := names.filter fun e => !known.contains e.1
  (h.bindAll root (further.map fun e => (e.1, ⟨e.2, false⟩))).newScope (some root) true

end Heap

end CoScript
