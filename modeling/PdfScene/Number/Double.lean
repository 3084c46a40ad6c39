/-!
# Doubles as exact numbers

A finite double is an integer times a power of two. Rules about doubles that have to be exact
(remainders, decimal texts) are stated and computed on that integer and exponent.
-/

set_option autoImplicit false

namespace PdfScene

/-- The number `mantissa * 2 ^ exponent`, negative or not. -/
structure Double where
  negative : Bool
  mantissa : Nat
  exponent : Int

namespace Double

/-- The exponent of the smallest doubles. -/
def minExponent : Int := -1074

/-- The exact value of a finite double. -/
def ofFloat? (x : Float) : Option Double :=
  let bits : Nat := x.toBits.toNat
  let negative := bits / Nat.pow 2 63 == 1
  let exponent : Nat := bits / Nat.pow 2 52 % 2048
  let fraction : Nat := bits % Nat.pow 2 52
  if exponent = 2047 then none
  else if exponent = 0 then some ⟨negative, fraction, minExponent⟩
  else some ⟨negative, fraction + Nat.pow 2 52, (exponent : Int) - 1075⟩

/-- The double of a value that is one exactly. -/
def toFloat (d : Double) : Float :=
  let magnitude := (Float.ofNat d.mantissa).scaleB d.exponent
  if d.negative then -magnitude else magnitude

/-- What is left of `x` after taking away `y` as often as it fits, both without their signs; the
sign is that of `x`. -/
def remainder (x y : Double) : Double :=
  let exponent := min x.exponent y.exponent
  let a := x.mantissa * Nat.pow 2 (x.exponent - exponent).toNat
  let b := y.mantissa * Nat.pow 2 (y.exponent - exponent).toNat
  ⟨x.negative, a % b, exponent⟩

end Double

/-- The truncated remainder of two doubles: it is exact, has the sign of the first, and is no number
where the quotient is none. -/
def floatRemainder (x y : Float) : Float :=
  match Double.ofFloat? x, Double.ofFloat? y with
  | some dx, some dy => if dy.mantissa = 0 then 0 / 0 else (dx.remainder dy).toFloat
  | some _, none => if y.isNaN then y else x
  | none, _ => 0 / 0

/-- The integer that a double is cut off to, at most the greatest and at least the least of 64 bits.
What is no number is cut off to zero. -/
def floatToInt (x : Float) : Int :=
  if x < 0 then max Int64.minValue.toInt (-((-x).toUInt64.toNat : Int))
  else min Int64.maxValue.toInt x.toUInt64.toNat

end PdfScene
