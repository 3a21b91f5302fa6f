import CoScript.Decimal.Binary

/-!
# The fewest digits that identify a double

The reals that round to a double form an interval around it, whose ends belong to it when the
mantissa is even. Of the decimal grids, from coarse to fine, the first that has a point in the
interval gives the digits; only the two grid points next to the double need a look.

Results:
* `shortest`: the digits of a positive double, and the power of ten that scales them.
-/

namespace CoScript.Decimal

/-- A number `digits · 10 ^ exponent`. -/
structure Scaled where
  digits : Nat
  exponent : Int
  deriving Repr, DecidableEq

/-- A positive double and the ends of its rounding interval over one denominator. -/
structure Interval where
  low : Nat
  value : Nat
  high : Nat
  denominator : Nat
  closed : Bool

namespace Interval

/-- The interval of the reals that round to a double. -/
def ofBinary (b : Binary) : Interval :=
  let e := b.exponent - 2
  let up := if 0 ≤ e then e.toNat else 0
  let low := 4 * b.mantissa - (if b.narrowBelow then 1 else 2)
  { low := low <<< up
    value := (4 * b.mantissa) <<< up
    high := (4 * b.mantissa + 2) <<< up
    denominator := if 0 ≤ e then 1 else 1 <<< (-e).toNat
    closed := b.mantissa % 2 = 0 }

/-- The interval in units of `10 ^ k`. -/
def inUnits (i : Interval) (k : Int) : Interval :=
  if 0 ≤ k then { i with denominator := i.denominator * Nat.pow 10 k.toNat }
  else
    let t := Nat.pow 10 (-k).toNat
    { i with low := i.low * t, value := i.value * t, high := i.high * t }

/-- Whether the whole number `d` lies in the interval. -/
def contains (i : Interval) (d : Nat) : Bool :=
  let n := d * i.denominator
  if i.closed then i.low ≤ n && n ≤ i.high else i.low < n && n < i.high

/-- The whole number of the interval that is nearest to the double; of two at the same distance the
    even one. -/
def nearest? (i : Interval) : Option Nat :=
  let d := i.value / i.denominator
  match i.contains d, i.contains (d + 1) with
  | false, false => none
  | true, false => some d
  | false, true => some (d + 1)
  | true, true =>
    let twice := 2 * i.value
    let middle := (2 * d + 1) * i.denominator
    if twice < middle then some d
    else if middle < twice then some (d + 1)
    else if d % 2 = 0 then some d else some (d + 1)

/-- The position of the leading digit: the greatest `p` with `10 ^ p` at most the double. -/
def magnitude (i : Interval) : Int :=
  if i.denominator ≤ i.value then ((Nat.toDigits 10 (i.value / i.denominator)).length : Int) - 1
  else
    let p := (Nat.toDigits 10 (i.denominator / i.value)).length - 1
    if i.denominator ≤ i.value * Nat.pow 10 p then -(p : Int) else -(p + 1 : Int)

end Interval

/-- Moves the zeros at the end of the digits into the exponent, at most `fuel` of them. -/
def Scaled.strip : Nat → Scaled → Scaled
  | 0, s => s
  | fuel + 1, s =>
    if s.digits % 10 = 0 && s.digits ≠ 0 then strip fuel ⟨s.digits / 10, s.exponent + 1⟩ else s

/-- The first grid with a point in the interval, from the one of `n` digits on; `fuel` grids are
    tried. -/
def firstGrid? (i : Interval) (p : Int) : Nat → Nat → Option Scaled
  | 0, _ => none
  | fuel + 1, n =>
    let k := p - (n : Int) + 1
    match (i.inUnits k).nearest? with
    | some d => some ⟨d, k⟩
    | none => firstGrid? i p fuel (n + 1)

/-- The fewest digits that read back as a positive double, and of those the nearest to it.
    Seventeen digits always suffice. -/
def shortest (b : Binary) : Scaled :=
  let i := Interval.ofBinary b
  match firstGrid? i i.magnitude 17 1 with
  | some s => s.strip 17
  | none => ⟨i.value / i.denominator, 0⟩

end CoScript.Decimal
