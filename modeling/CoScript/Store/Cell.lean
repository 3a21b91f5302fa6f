import CoScript.Data.Ordered
import CoScript.Store.Value
import CoScript.Tree.Basic

/-!
# Heap cells

What scopes, classes, instances and functions are made of. Arrays and plain objects are values in
order and need no definition of their own.
-/

namespace CoScript

/-- The value that a name stands for in a scope. -/
structure Binding where
  value : Value
  isConst : Bool
  deriving Repr, Inhabited

/-- A scope: names, and the scope around it. -/
structure Scope where
  parent : Option (Ref .scope)
  /-- whether declarations for a whole function land here -/
  isFunction : Bool
  bindings : Ordered Binding
  deriving Repr

instance : Inhabited Scope := ⟨⟨none, true, .empty⟩⟩

/-- A class; its superclass was made before it. -/
structure Class where
  name : String
  superclass : Option (Ref .cls)
  interfaces : List String
  fields : List FieldDecl
  methods : Ordered (Ref .function)
  /-- the scope of the declaration -/
  scope : Ref .scope

instance : Inhabited Class := ⟨⟨"", none, [], [], .empty, ⟨0⟩⟩⟩

/-- An instance of a class. -/
structure Instance where
  cls : Ref .cls
  fields : Ordered Value
  deriving Repr

instance : Inhabited Instance := ⟨⟨⟨0⟩, .empty⟩⟩

/-- The methods of arrays. -/
inductive ArrayMethod where
  | push | pop | join | includes | indexOf
  deriving Repr, DecidableEq

namespace ArrayMethod

/-- The name of a method of arrays. -/
def name : ArrayMethod → String
  | push => "push"
  | pop => "pop"
  | join => "join"
  | includes => "includes"
  | indexOf => "indexOf"

/-- All methods of arrays. -/
def all : List ArrayMethod := [push, pop, join, includes, indexOf]

/-- The method of arrays with a name. -/
def ofName? (s : String) : Option ArrayMethod :=
  all.find? (·.name == s)

end ArrayMethod

/-- A function written in the script, with the scope that it was made in. -/
structure Closure where
  /-- the name, which a function without one gets from the first variable or property it is put
      into -/
  name : Option String
  params : List Param
  body : FunctionBody
  scope : Ref .scope
  isAsync : Bool
  isArrow : Bool
  /-- the class whose method it is -/
  home : Option (Ref .cls)

/-- A function. -/
inductive Function where
  | print
  /-- a method of one array -/
  | arrayMethod (method : ArrayMethod) (items : Ref .array)
  /-- a function of the host, known by its name -/
  | host (name : String)
  | closure (closure : Closure)
  /-- a method with the instance it was read from -/
  | bound (method : Ref .function) (receiver : Ref .inst)

instance : Inhabited Function := ⟨.print⟩

end CoScript
