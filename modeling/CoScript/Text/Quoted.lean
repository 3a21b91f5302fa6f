/-!
# Quoted strings

A string is written between double quotes. Inside them a backslash and a double quote follow a
backslash, and a line break is written `\n`, so the written form stays on one line. Reading undoes
this and knows one escape more, the single quote; a backslash before any other character stands for
itself.

Results:
* `unescape_escape`: reading what writing escapes gives the string back.
* `escape_eq_escapeInPasses`: escaping in one pass is replacing in three, the backslashes first.
-/

namespace CoScript.Text

/-- How one character is written between quotes. -/
def escapeChar : Char → List Char
  | '\\' => ['\\', '\\']
  | '"' => ['\\', '"']
  | '\n' => ['\\', 'n']
  | c => [c]

/-- What a backslash and the character after it stand for. -/
def unescapePair : Char → List Char
  | '"' => ['"']
  | '\'' => ['\'']
  | '\\' => ['\\']
  | 'n' => ['\n']
  | c => ['\\', c]

/-- The characters of a string as they are written between its quotes. -/
def escape (cs : List Char) : List Char :=
  cs.flatMap escapeChar

/-- The string that the characters between two quotes stand for. -/
def unescape : List Char → List Char
  | [] => []
  | [c] => [c]
  | c :: d :: r => if c = '\\' then unescapePair d ++ unescape r else c :: unescape (d :: r)

/-- A string in double quotes. -/
def quote (s : String) : String :=
  String.ofList ('"' :: (escape s.toList ++ ['"']))

/-- A character that does not start an escape is read as itself. -/
theorem unescape_cons {c : Char} (h : c ≠ '\\') (r : List Char) :
    unescape (c :: r) = c :: unescape r := by
  cases r with
  | nil => rfl
  | cons d r => simp [unescape, h]

/-- What is read back from an escaped string is the string. -/
theorem unescape_escape (cs : List Char) : unescape (escape cs) = cs := by
  induction cs with
  | nil => rfl
  | cons c r ih =>
    simp only [escape, List.flatMap_cons] at ih ⊢
    fun_cases escapeChar c with
    | case4 c hb hq hn => simp [unescape_cons hb, ih]
    | _ => simp [unescape, unescapePair, ih]

/-! ## Escaping in passes -/

/-- Every `c` replaced by `new`. -/
def replace (c : Char) (new cs : List Char) : List Char :=
  cs.flatMap fun d => if d = c then new else [d]

/-- Backslashes escaped in a first pass, then quotes and then line breaks. -/
def escapeInPasses (cs : List Char) : List Char :=
  replace '\n' ['\\', 'n'] (replace '"' ['\\', '"'] (replace '\\' ['\\', '\\'] cs))

/-- In this order no pass finds characters that an earlier one has put there, so one pass does the
    same. -/
theorem escape_eq_escapeInPasses (cs : List Char) : escape cs = escapeInPasses cs := by
  simp only [escape, escapeInPasses, replace, List.flatMap_assoc]
  refine congrArg cs.flatMap (funext fun c => ?_)
  fun_cases escapeChar c with
  | case4 c hback hquote hbreak =>
    rw [if_neg hback, List.flatMap_singleton, if_neg hquote, List.flatMap_singleton, if_neg hbreak]
  | _ => decide

theorem toList_quote (s : String) : (quote s).toList = '"' :: (escape s.toList ++ ['"']) :=
  String.toList_ofList

end CoScript.Text
