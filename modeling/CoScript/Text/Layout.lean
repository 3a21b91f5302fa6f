/-!
# Laying out text

Results:
* `indent`: a text moved to the right.
* `join`: texts with a separator between them.
* `unifyBreaks`: a text whose lines end in line feeds only.
-/

namespace CoScript.Text

/-- The characters of a text with four blanks before each line that is not empty; `fresh` holds at
    the start of a line. -/
def indentFrom (fresh : Bool) : List Char → List Char
  | [] => []
  | c :: r =>
    if c = '\n' then c :: indentFrom true r
    else if fresh then ' ' :: ' ' :: ' ' :: ' ' :: c :: indentFrom false r
    else c :: indentFrom false r

/-- A text moved to the right by four columns; empty lines stay empty. -/
def indent (s : String) : String :=
  String.ofList (indentFrom true s.toList)

/-- Texts with a separator between them. -/
def join (separator : String) : List String → String
  | [] => ""
  | [s] => s
  | s :: r => s ++ separator ++ join separator r

theorem join_eq_intercalate (separator : String) (texts : List String) :
    join separator texts = separator.intercalate texts := by
  induction texts with
  | nil => rw [join, String.intercalate_nil]
  | cons s r ih =>
    cases r with
    | nil => rw [join, String.intercalate_singleton]
    | cons t r => simp only [join, ih, String.intercalate_cons_cons]

/-- Characters with a line feed for every line break; `afterReturn` holds behind a carriage return,
    whose line feed is already there. -/
def unifyFrom (afterReturn : Bool) : List Char → List Char
  | [] => []
  | c :: r =>
    if c = '\r' then '\n' :: unifyFrom true r
    else if c = '\n' && afterReturn then unifyFrom false r
    else c :: unifyFrom false r

/-- A text whose lines end in line feeds only, where a carriage return, alone or before a line feed,
    also ended them. -/
def unifyBreaks (s : String) : String :=
  String.ofList (unifyFrom false s.toList)

/-- Whether a text starts with another. -/
def startsWith (s start : String) : Bool :=
  start.toList.isPrefixOf s.toList

/-- A text in parentheses, if they are needed. -/
def parens (needed : Bool) (s : String) : String :=
  if needed then "(" ++ s ++ ")" else s

/-- A text between braces. -/
def braces (s : String) : String :=
  "\x7b" ++ s ++ "\x7d"

end CoScript.Text
