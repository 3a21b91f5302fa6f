import CoScript.Text.Blank

/-!
# Whole numbers in text

A whole number is a sign, if any, and decimal digits of any script. A single underscore may stand
between two digits, and blanks may stand at both ends. No more than 4300 digits are read.

Results:
* `readInt?`: the number that a text holds.
-/

namespace CoScript.Text

/-- The zeros of the scripts beyond ASCII that have decimal digits; each is followed by its one to
    nine. -/
def wideZeros : List Nat := [
  0x660, 0x6f0, 0x7c0, 0x966, 0x9e6, 0xa66, 0xae6, 0xb66, 0xbe6, 0xc66, 0xce6, 0xd66, 0xde6, 0xe50,
  0xed0, 0xf20, 0x1040, 0x1090, 0x17e0, 0x1810, 0x1946, 0x19d0, 0x1a80, 0x1a90, 0x1b50, 0x1bb0,
  0x1c40, 0x1c50, 0xa620, 0xa8d0, 0xa900, 0xa9d0, 0xa9f0, 0xaa50, 0xabf0, 0xff10, 0x104a0, 0x10d30,
  0x11066, 0x110f0, 0x11136, 0x111d0, 0x112f0, 0x11450, 0x114d0, 0x11650, 0x116c0, 0x11730,
  0x118e0, 0x11950, 0x11c50, 0x11d50, 0x11da0, 0x16a60, 0x16ac0, 0x16b50, 0x1d7ce, 0x1d7d8,
  0x1d7e2, 0x1d7ec, 0x1d7f6, 0x1e140, 0x1e2f0, 0x1e950, 0x1fbf0]
/-- The value of a decimal digit. -/
def digitValue? (c : Char) : Option Nat :=
  if c.isDigit then some (c.toNat - 48)
  else (wideZeros.find? fun z => z ≤ c.toNat && c.toNat < z + 10).map (c.toNat - ·)

/-- The digits of a number in order, the first one still to come when `needed` is set: an underscore
    needs a digit on both sides. -/
def readDigits? : Bool → List Char → Option (List Nat)
  | needed, [] => if needed then none else some []
  | needed, c :: r =>
    if c = '_' then
      if needed then none else readDigits? true r
    else do
      let d ← digitValue? c
      let ds ← readDigits? false r
      return d :: ds

/-- The most digits that a number may have. -/
def maxDigits : Nat := 4300

/-- The number without a sign that the characters spell. -/
def readNat? (cs : List Char) : Option Nat := do
  let ds ← readDigits? true cs
  if ds.length ≤ maxDigits then some (ds.foldl (fun n d => 10 * n + d) 0) else none

/-- The whole number that a text holds, if it holds nothing else. -/
def readInt? (s : String) : Option Int :=
  match trimBoth (fun c => isAsciiBlank c || isWideBlank c) s.toList with
  | '-' :: r => (readNat? r).map fun n => -(n : Int)
  | '+' :: r => (readNat? r).map Int.ofNat
  | cs => (readNat? cs).map Int.ofNat

end CoScript.Text
