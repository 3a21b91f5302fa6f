import CoScript.Decimal.Shortest

/-!
# How numbers are written

A whole number below `10 ^ 21` is written with all its digits. Any other finite number has the
fewest digits that identify it, placed around a point or scaled by an exponent.

Results:
* `numberText`: the text of a script number.
-/

namespace CoScript.Decimal

/-- The decisions of a number format. -/
structure Format where
  /-- whole numbers below ten to this power are written in full -/
  wholeBelow : Nat
  /-- the least position of the leading digit that is written without an exponent -/
  leastPoint : Int
  /-- the first position of the leading digit that is written with an exponent -/
  mostPoint : Int
  /-- the least number of digits of an exponent -/
  exponentWidth : Nat

/-- Script numbers: whole below `10 ^ 21`, a point from `10 ^ -4` up to `10 ^ 16`, and exponents of
    at least two digits. -/
def scriptFormat : Format := ⟨21, -4, 16, 2⟩

/-- The decimal digits of a natural number. -/
def digitsOf (n : Nat) : List Char :=
  Nat.toDigits 10 n

/-- The digits with a point after the first `p + 1` of them, where `p` is the position of the
    leading one. -/
def pointText (ds : List Char) (p : Int) : List Char :=
  if p < 0 then '0' :: '.' :: (List.replicate (-p - 1).toNat '0' ++ ds)
  else
    let w := p.toNat + 1
    if ds.length ≤ w then ds ++ List.replicate (w - ds.length) '0' ++ ['.', '0']
    else ds.take w ++ '.' :: ds.drop w

/-- The digits with a point after the first, scaled by an exponent with a sign. -/
def exponentText (f : Format) (ds : List Char) (p : Int) : List Char :=
  let tail := ds.drop 1
  let mantissa := if tail.isEmpty then ds else ds.take 1 ++ '.' :: tail
  let e := digitsOf p.natAbs
  mantissa ++ 'e' :: (if p < 0 then '-' else '+') ::
    (List.replicate (f.exponentWidth - e.length) '0' ++ e)

/-- The text of a positive magnitude. -/
def magnitudeText (f : Format) (b : Binary) : List Char :=
  match b.nat?.filter (· < Nat.pow 10 f.wholeBelow) with
  | some n => digitsOf n
  | none =>
    let s := shortest b
    let ds := digitsOf s.digits
    let p := s.exponent + (ds.length : Int) - 1
    if f.leastPoint ≤ p && p < f.mostPoint then pointText ds p else exponentText f ds p

/-- The text of a double in a format. Both zeros are written alike. -/
def Format.text (f : Format) (x : Float) : String :=
  match Binary.ofFloat? x with
  | none => if x.isNaN then "NaN" else if isNegative x then "-Infinity" else "Infinity"
  | some b =>
    if b.mantissa = 0 then "0"
    else
      let t := magnitudeText f b
      String.ofList (if isNegative x then '-' :: t else t)

/-- The text of a script number. -/
def numberText (x : Float) : String :=
  scriptFormat.text x

/-- The double nearest to the decimal with the digits `whole` before and `part` after the point. -/
def ofDecimal (whole part : List Char) : Float :=
  let value := (whole ++ part).foldl (fun n c => 10 * n + (c.toNat - 48)) 0
  Float.ofScientific value true part.length

end CoScript.Decimal
