import CoScript.Text.Layout
import CoScript.Text.Visible

/-!
# Paths and module options

A path is kept in a normal form: its parts without empty ones and without `.`, which mean nothing.
Two slashes at the start, and no more than two, are a root of their own.

Results:
* `Path.normal`: the normal form of a path.
* `ModuleOption.parse`: a module and the path of its file.
-/

namespace CoScript

namespace Path

/-- The parts of a path between its slashes. -/
def split : List Char → List (List Char)
  | [] => [[]]
  | c :: r =>
    if c = '/' then [] :: split r
    else
      match split r with
      | [] => [[c]]
      | part :: rest => (c :: part) :: rest

/-- The parts of a path that mean something. -/
def parts (path : String) : List String :=
  ((split path.toList).filter fun p => p ≠ [] && p ≠ ['.']).map String.ofList

/-- The root that a path starts from. -/
def root (path : String) : String :=
  match (path.toList.takeWhile (· = '/')).length with
  | 0 => ""
  | 2 => "//"
  | _ => "/"

/-- The normal form of a path. -/
def normal (path : String) : String :=
  let s := root path ++ Text.join "/" (parts path)
  if s.isEmpty then "." else s

end Path

/-- A module and the path of the file that holds it. -/
structure ModuleOption where
  specifier : String
  path : String
  deriving Repr, DecidableEq

/-- A text that names no module or no path. -/
structure ModuleOption.Malformed where
  text : String
  deriving Repr, DecidableEq

namespace ModuleOption

/-- The message about a malformed option. -/
def Malformed.message (m : Malformed) : String :=
  "expected SPEC=PATH, got " ++ Text.visible m.text

/-- Splits an option at its first equals sign. -/
def parse (text : String) : Except Malformed ModuleOption :=
  let (before, after) := text.toList.span (· ≠ '=')
  match before, after with
  | _ :: _, _ :: c :: r => .ok ⟨String.ofList before, Path.normal (String.ofList (c :: r))⟩
  | _, _ => .error ⟨text⟩

end ModuleOption

end CoScript
