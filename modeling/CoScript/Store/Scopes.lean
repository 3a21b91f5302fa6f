import CoScript.Store.Cell

/-!
# Scopes

Scopes form a forest: each scope knows the one around it, which was made before it. A name means
the binding of the innermost scope that has one.

Results:
* `Scopes.define`, `Scopes.hoist`, `Scopes.declareVar`, `Scopes.assign`, `Scopes.copy`: the writes.
* `Scopes.lookup`: the value of a name.
-/

namespace CoScript

/-- A forest of scopes. -/
structure Scopes where
  cells : Array Scope
  deriving Repr

namespace Scopes

/-- The forest without scopes. -/
def empty : Scopes := ⟨#[]⟩

instance : Inhabited Scopes := ⟨empty⟩

/-- A scope; one that was never made has no bindings and nothing around it. -/
def get (s : Scopes) (r : Ref .scope) : Scope :=
  s.cells.getD r.index default

/-- The bindings of a scope changed by a function. -/
def modify (s : Scopes) (r : Ref .scope) (f : Ordered Binding → Ordered Binding) : Scopes :=
  ⟨s.cells.modify r.index fun c => { c with bindings := f c.bindings }⟩

/-- A new scope inside another. A scope with nothing around it counts as that of a function. -/
def new (s : Scopes) (parent : Option (Ref .scope)) (isFunction : Bool) : Ref .scope × Scopes :=
  (⟨s.cells.size⟩, ⟨s.cells.push ⟨parent, isFunction || parent.isNone, .empty⟩⟩)

/-- The first of a scope and `n` scopes around it, from inside to outside, that satisfies `p`. -/
def climb (s : Scopes) (p : Scope → Bool) : Nat → Ref .scope → Option (Ref .scope)
  | 0, r => if p (s.get r) then some r else none
  | n + 1, r =>
    if p (s.get r) then some r
    else
      match (s.get r).parent with
      | some outer => climb s p n outer
      | none => none

/-- The innermost scope around a place that binds a name. A scope is younger than the scopes around
    it, so there are no more of them than its index. -/
def find? (s : Scopes) (r : Ref .scope) (name : String) : Option (Ref .scope) :=
  s.climb (·.bindings.contains name) r.index r

/-- The scope of the function around a place. -/
def functionScope (s : Scopes) (r : Ref .scope) : Ref .scope :=
  (s.climb (fun c => c.isFunction || c.parent.isNone) r.index r).getD r

/-- The binding of a name in one scope. -/
def binding? (s : Scopes) (r : Ref .scope) (name : String) : Option Binding :=
  (s.get r).bindings.get? name

/-- The binding that a name means at a place. -/
def resolve? (s : Scopes) (r : Ref .scope) (name : String) : Option Binding := do
  s.binding? (← s.find? r name) name

/-- The value that a name stands for at a place. -/
def lookup (s : Scopes) (r : Ref .scope) (name : String) : Except FaultCause Value :=
  match s.resolve? r name with
  | some b => .ok b.value
  | none => .error (.unbound name)

/-- Binds a name in a scope, whatever it meant there before. -/
def bind (s : Scopes) (r : Ref .scope) (name : String) (b : Binding) : Scopes :=
  s.modify r (·.set name b)

/-- Why a name cannot be declared in a scope. -/
def defineFault? (s : Scopes) (r : Ref .scope) (name : String) : Option FaultCause :=
  if (s.get r).bindings.contains name then some (.redeclared name) else none

/-- Declares a name in a scope that does not have it. -/
def define (s : Scopes) (r : Ref .scope) (name : String) (value : Value) (isConst : Bool) :
    Except FaultCause Scopes :=
  match s.defineFault? r name with
  | some cause => .error cause
  | none => .ok (s.bind r name ⟨value, isConst⟩)

/-- Binds the function that a declaration names; a later declaration takes its place. -/
def hoist (s : Scopes) (r : Ref .scope) (name : String) (value : Value) : Scopes :=
  s.bind r name ⟨value, false⟩

/-- Declares a name in the scope of the function around a place. One that is there keeps its value
    unless a new one is given. -/
def declareVar (s : Scopes) (r : Ref .scope) (name : String) (value : Option Value) : Scopes :=
  let target := s.functionScope r
  match s.binding? target name, value with
  | none, v => s.bind target name ⟨v.getD .undefined, false⟩
  | some b, some v => s.bind target name { b with value := v }
  | some _, none => s

/-- The scope whose binding an assignment writes, or why there is none. -/
def assignTarget (s : Scopes) (r : Ref .scope) (name : String) :
    Except FaultCause (Ref .scope) :=
  match s.find? r name with
  | none => .error (.unbound name)
  | some target =>
    match s.binding? target name with
    | some ⟨_, true⟩ => .error (.constant name)
    | _ => .ok target

/-- Writes the value of the binding that a name means at a place. -/
def assign (s : Scopes) (r : Ref .scope) (name : String) (value : Value) :
    Except FaultCause Scopes :=
  (s.assignTarget r name).map fun target => s.bind target name ⟨value, false⟩

/-- A new scope with the bindings and the surroundings of another. -/
def copy (s : Scopes) (r : Ref .scope) : Ref .scope × Scopes :=
  (⟨s.cells.size⟩, ⟨s.cells.push (s.get r)⟩)

end Scopes

end CoScript
