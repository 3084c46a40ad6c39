import PdfScene.Number.Double

/-!
# Scalars — the arithmetic that geometry needs

Transforms, rectangles and page frames use a handful of operations on numbers and nothing else about
them. `Scalar` names those operations, so the geometry is one definition whether it runs on doubles
or is read over exact numbers. Turning an angle into a direction is the one operation that exact
numbers need not have, so it is a class of its own.
-/

set_option autoImplicit false

namespace PdfScene

/-- Numbers that coordinates can be made of. -/
class Scalar (α : Type) extends Add α, Sub α, Mul α, Div α, Neg α, LT α, LE α, BEq α where
  decLt : (a b : α) → Decidable (a < b)
  decLe : (a b : α) → Decidable (a ≤ b)
  lesser : α → α → α
  greater : α → α → α
  abs : α → α
  /-- What division toward zero leaves over. -/
  remainder : α → α → α
  /-- The number of `n` units, each the `places`-th decimal place. -/
  decimal : Int → Nat → α

attribute [reducible, instance] Scalar.decLt Scalar.decLe

/-- Whole numbers as scalars, where a type has none of its own. -/
instance (priority := 50) {α : Type} [Scalar α] (n : Nat) : OfNat α n := ⟨Scalar.decimal n 0⟩

/-- The lesser of two doubles; the other one, if one is no number. -/
def floatLesser (x y : Float) : Float := if x.isNaN then y else if y < x then y else x

/-- The greater of two doubles; the other one, if one is no number. -/
def floatGreater (x y : Float) : Float := if x.isNaN then y else if x < y then y else x

/-- The double nearest to `n` units of the `places`-th decimal place. -/
def floatDecimal (n : Int) (places : Nat) : Float :=
  let magnitude := Float.ofScientific n.natAbs true places
  if n < 0 then -magnitude else magnitude

instance : Scalar Float where
  decLt := fun a b => inferInstanceAs (Decidable (a < b))
  decLe := fun a b => inferInstanceAs (Decidable (a ≤ b))
  lesser := floatLesser
  greater := floatGreater
  abs := Float.abs
  remainder := floatRemainder
  decimal := floatDecimal

/-- Scalars that angles can be made of. -/
class Angle (α : Type) where
  /-- Sine of an angle in degrees. -/
  sin : α → α
  /-- Cosine of an angle in degrees. -/
  cos : α → α

/-- Half a turn in radians. -/
def pi : Float := 3.14159265358979323846264338327950288

/-- An angle in radians. -/
def radians (degrees : Float) : Float := degrees * (pi / 180)

instance : Angle Float where
  sin := fun degrees => (radians degrees).sin
  cos := fun degrees => (radians degrees).cos

end PdfScene
