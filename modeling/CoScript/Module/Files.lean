import CoScript.Data.Ordered
import CoScript.Module.Path

/-!
# Files

Relative paths start from one directory, the base. The files below it lie in directories, and `..`
leads back out of a directory only if that is there. What lies above the base is not known: a path
that leads there, or that starts from a root, stands for itself.

Results:
* `Files.key?`: what the text at a path is kept under.
* `Files.write`, `Files.read?`: the text at a path.
-/

namespace CoScript

/-- Texts of files, and the directories below the base, each as the names that lead to it. -/
structure Files where
  directories : List (List String)
  texts : Ordered String
  deriving Repr

/-- Where a relative path leads. -/
inductive Destination where
  /-- to a name below the base, or to the base itself -/
  | inside (names : List String)
  /-- above the base -/
  | outside
  /-- back out of a directory that is not there -/
  | nowhere
  deriving Repr, DecidableEq

namespace Files

/-- No files. -/
def none : Files := ⟨[], .empty⟩

instance : Inhabited Files := ⟨none⟩

/-- Where the parts of a path lead from a directory below the base. -/
def follow (fs : Files) : List String → List String → Destination
  | here, [] => .inside here
  | here, part :: rest =>
    if part = ".." then
      if here.isEmpty then .outside
      else if fs.directories.contains here then fs.follow here.dropLast rest
      else .nowhere
    else fs.follow (here ++ [part]) rest

/-- What the text at a path is kept under, unless the path leads nowhere. -/
def key? (fs : Files) (path : String) : Option String :=
  if Path.root path = "" then
    match fs.follow [] (Path.parts path) with
    | .inside names => some (Text.join "/" names)
    | .outside => some (Path.normal path)
    | .nowhere => .none
  else some (Path.normal path)

/-- The text of a file. -/
def read? (fs : Files) (path : String) : Option String :=
  (fs.key? path).bind fs.texts.get?

/-- The files with a directory. -/
def withDirectory (fs : Files) (names : List String) : Files :=
  if fs.directories.contains names then fs
  else { fs with directories := names :: fs.directories }

/-- The files with all directories that the parts of a path pass through on the way to the last
    one. -/
def withDirectories (fs : Files) : List String → List String → Files
  | _, [] => fs
  | _, [_] => fs
  | here, part :: rest =>
    if part = ".." then
      if here.isEmpty then fs else fs.withDirectories here.dropLast rest
    else (fs.withDirectory (here ++ [part])).withDirectories (here ++ [part]) rest

/-- A file written; the directories on the way to it are made. -/
def write (fs : Files) (path text : String) : Files :=
  let fs := if Path.root path = "" then fs.withDirectories [] (Path.parts path) else fs
  match fs.key? path with
  | some key => { fs with texts := fs.texts.set key text }
  | .none => fs

end Files

end CoScript
