/-!
# Blank characters

Two sets of blanks: all that Unicode counts as white space together with the four information
separators, and the blanks that may stand around a number, which leave those separators out.

Results:
* `trim`: a text without the blanks at its ends.
-/

namespace CoScript.Text

/-- The blanks of ASCII that separate words: space, tab, line feed, vertical tab, form feed and
    carriage return. -/
def isAsciiBlank (c : Char) : Bool :=
  c = ' ' || (9 ≤ c.toNat && c.toNat ≤ 13)

/-- The blanks beyond ASCII. -/
def isWideBlank (c : Char) : Bool :=
  let n := c.toNat
  n = 0x85 || n = 0xa0 || n = 0x1680 || (0x2000 ≤ n && n ≤ 0x200a) || n = 0x2028 || n = 0x2029 ||
    n = 0x202f || n = 0x205f || n = 0x3000

/-- Any blank, the information separators among them. -/
def isBlank (c : Char) : Bool :=
  isAsciiBlank c || isWideBlank c || (0x1c ≤ c.toNat && c.toNat ≤ 0x1f)

/-- The characters without those at both ends that satisfy `p`. -/
def trimBoth (p : Char → Bool) (cs : List Char) : List Char :=
  ((cs.dropWhile p).reverse.dropWhile p).reverse

/-- A text without the blanks at its ends. -/
def trim (s : String) : String :=
  String.ofList (trimBoth isBlank s.toList)

end CoScript.Text
