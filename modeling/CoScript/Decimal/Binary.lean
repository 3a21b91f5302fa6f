/-!
# Doubles as exact numbers

A finite double is a sign and a number `mantissa · 2 ^ exponent`. This module takes a double apart,
puts one together, and computes with the parts exactly.

Results:
* `Binary.ofFloat?`, `Binary.toFloat`: between doubles and their parts.
* `remainder`: the exact remainder of a division that rounds toward zero.
* `natOfFloat?`: the natural number that a double is.
-/

namespace CoScript.Decimal

/-- The magnitude `mantissa · 2 ^ exponent` of a finite double. `narrowBelow` holds when the gap to
    the double below is half the gap to the one above. -/
structure Binary where
  mantissa : Nat
  exponent : Int
  narrowBelow : Bool
  deriving Repr, DecidableEq

/-- The sign bit of a double. -/
def isNegative (x : Float) : Bool :=
  x.toBits >>> 63 == 1

namespace Binary

/-- The mantissa of a normal double whose fraction is zero: two to the power of 52. -/
def normal : Nat := 0x10000000000000

/-- The magnitude of a double, unless it is infinite or not a number. -/
def ofFloat? (x : Float) : Option Binary :=
  let bits : Nat := x.toBits.toNat
  let fraction : Nat := bits % normal
  let scale : Nat := bits / normal % 2048
  if scale = 2047 then none
  else if scale = 0 then some ⟨fraction, -1074, false⟩
  else some ⟨normal + fraction, (scale : Int) - 1075, fraction = 0 && scale ≠ 1⟩

/-- `n · 2 ^ e` as a double, for a value that a double can hold. -/
def toFloat (n : Nat) (e : Int) : Float :=
  if n = 0 then 0
  else
    let scale := max (-1074) (e + (n.log2 : Int) - 52)
    let m := if scale ≤ e then n <<< (e - scale).toNat else n >>> (scale - e).toNat
    if m < normal then Float.ofBits (UInt64.ofNat m)
    else Float.ofBits (UInt64.ofNat ((scale + 1075).toNat * normal + (m - normal)))

/-- The magnitude as a fraction of natural numbers. -/
def fraction (b : Binary) : Nat × Nat :=
  if 0 ≤ b.exponent then (b.mantissa <<< b.exponent.toNat, 1)
  else (b.mantissa, 1 <<< (-b.exponent).toNat)

/-- The magnitude, if it is a whole number. -/
def nat? (b : Binary) : Option Nat :=
  let (n, d) := b.fraction
  if n % d = 0 then some (n / d) else none

end Binary

/-- The natural number that a double is; a zero of either sign is zero. -/
def natOfFloat? (x : Float) : Option Nat := do
  let n ← (← Binary.ofFloat? x).nat?
  if isNegative x && n ≠ 0 then none else some n

/-- What is left of `x` after the whole multiples of `y` toward zero are taken away; it has the sign
    of `x`. There is none for a zero divisor or an infinite dividend. -/
def remainder (x y : Float) : Float :=
  match Binary.ofFloat? x, Binary.ofFloat? y with
  | some a, some b =>
    if b.mantissa = 0 then 0.0 / 0.0
    else
      let e := min a.exponent b.exponent
      let r := (a.mantissa <<< (a.exponent - e).toNat) % (b.mantissa <<< (b.exponent - e).toNat)
      let magnitude := Binary.toFloat r e
      if isNegative x then -magnitude else magnitude
  | some _, none => if y.isNaN then y else x
  | none, _ => 0.0 / 0.0

end CoScript.Decimal
