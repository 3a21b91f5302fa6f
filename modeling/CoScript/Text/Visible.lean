import CoScript.Text.Printable

/-!
# Text shown in messages

A message shows a text that it cannot trust in quotes, with everything that would not show written
as an escape. Single quotes are used unless the text holds one and no double quote.

Results:
* `visible`: the quoted form.
-/

namespace CoScript.Text

/-- The digits of a number in base sixteen, padded with zeros to a width. -/
def hexDigits (width n : Nat) : List Char :=
  let ds := Nat.toDigits 16 n
  List.replicate (width - ds.length) '0' ++ ds

/-- The escape by number of a character that is not printable: two, four or eight digits. -/
def numberEscape (c : Char) : List Char :=
  let n := c.toNat
  if n < 0x100 then '\\' :: 'x' :: hexDigits 2 n
  else if n < 0x10000 then '\\' :: 'u' :: hexDigits 4 n
  else '\\' :: 'U' :: hexDigits 8 n

/-- One character inside the quotes `mark`. -/
def visibleChar (mark c : Char) : List Char :=
  if c = mark || c = '\\' then ['\\', c]
  else if c = '\n' then ['\\', 'n']
  else if c = '\r' then ['\\', 'r']
  else if c = '\t' then ['\\', 't']
  else if isPrintable c then [c]
  else numberEscape c

/-- A text in quotes, with every character made visible. -/
def visible (s : String) : String :=
  let cs := s.toList
  let mark := if cs.contains '\'' && !cs.contains '"' then '"' else '\''
  String.ofList (mark :: (cs.flatMap (visibleChar mark) ++ [mark]))

end CoScript.Text
