import PdfScene.Number.Double

/-!
# Decimal texts of doubles

Two rules are used. The shortest text of a double is the decimal with the fewest digits that reads
back as that double, the nearest to it if there are several, and written without an exponent. A text
of fixed places is the exact value rounded to that many places, a half going to the even neighbour.
Both are computed on the exact value in whole numbers.
-/

set_option autoImplicit false

namespace PdfScene.Decimal

/-- The number `digits * 10 ^ exponent`. -/
structure Scaled where
  digits : Nat
  exponent : Int

/-- A quotient of natural numbers. -/
structure Ratio where
  num : Nat
  den : Nat

namespace Ratio

/-- `n * 2 ^ e`. -/
def ofBinary (n : Nat) (e : Int) : Ratio :=
  if 0 ≤ e then ⟨n * Nat.pow 2 e.toNat, 1⟩ else ⟨n, Nat.pow 2 (-e).toNat⟩

/-- The quotient counted in units of `10 ^ k`. -/
def inUnits (r : Ratio) (k : Int) : Ratio :=
  if 0 ≤ k then ⟨r.num, r.den * Nat.pow 10 k.toNat⟩ else ⟨r.num * Nat.pow 10 (-k).toNat, r.den⟩

/-- The greatest whole number below. -/
def floor (r : Ratio) : Nat := r.num / r.den

/-- The whole number nearest to a quotient, the even one of two. -/
def roundEven (r : Ratio) : Nat :=
  let q := r.num / r.den
  let twice := 2 * (r.num % r.den)
  if twice < r.den then q
  else if r.den < twice then q + 1
  else if q % 2 = 0 then q else q + 1

end Ratio

/-! ## The fewest digits that read back -/

/-- The reals that round to one double: those between two bounds, with the bounds themselves if the
double's mantissa is even. -/
structure Interval where
  low : Ratio
  value : Ratio
  high : Ratio
  closed : Bool

namespace Interval

/-- The interval of a positive double. Its neighbours are half a unit of the mantissa away on either
side, but a quarter below a power of two. -/
def of (mantissa : Nat) (exponent : Int) : Interval :=
  let below :=
    if mantissa = Nat.pow 2 52 ∧ Double.minExponent < exponent then 4 * mantissa - 1
    else 4 * mantissa - 2
  { low := .ofBinary below (exponent - 2)
    value := .ofBinary (4 * mantissa) (exponent - 2)
    high := .ofBinary (4 * mantissa + 2) (exponent - 2)
    closed := mantissa % 2 == 0 }

/-- Whether `n` units of `10 ^ k` lie in the interval. -/
def holds (i : Interval) (k : Int) (n : Nat) : Bool :=
  let low := i.low.inUnits k
  let high := i.high.inUnits k
  if i.closed then low.num ≤ n * low.den && n * high.den ≤ high.num
  else low.num < n * low.den && n * high.den < high.num

/-- The multiple of `10 ^ k` in the interval that is nearest to its double, the greater of two. -/
def nearest? (i : Interval) (k : Int) : Option Nat :=
  let value := i.value.inUnits k
  let q := value.floor
  match i.holds k q, i.holds k (q + 1) with
  | true, true => some (if 2 * (value.num % value.den) < value.den then q else q + 1)
  | true, false => some q
  | false, true => some (q + 1)
  | false, false => none

/-- The first unit among `10 ^ k` and the next finer ones that has a multiple in the interval. -/
def coarsest (i : Interval) (k : Int) : Nat → Scaled
  | 0 => ⟨i.value.inUnits k |>.floor, k⟩
  | steps + 1 =>
    match i.nearest? k with
    | some n => ⟨n, k⟩
    | none => coarsest i (k - 1) steps

end Interval

/-- The exponent of the first digit, given one that is not too small. -/
def leadingExponent (value : Ratio) (k : Int) : Nat → Int
  | 0 => k
  | steps + 1 => if 1 ≤ (value.inUnits k).floor then k else leadingExponent value (k - 1) steps

/-- The shortest decimal of a positive double. The search starts at the place above the first digit,
since rounding may carry into it, and seventeen digits always suffice. -/
def shortest (mantissa : Nat) (exponent : Int) : Scaled :=
  let i := Interval.of mantissa exponent
  -- a double of b bits has at most b * 0.302 digits before its point
  let bits : Int := mantissa.log2 + exponent
  let guess := bits * 302 / 1000 + 2
  i.coarsest (leadingExponent i.value guess 6 + 1) 18

/-! ## Texts -/

def digits (n : Nat) : List Char := Nat.toDigits 10 n

def zeros (n : Nat) : List Char := List.replicate n '0'

/-- Digits with a point before the last `places` of them. -/
def withPoint (n places : Nat) : List Char :=
  let ds := digits n
  let ds := zeros (places + 1 - ds.length) ++ ds
  if places = 0 then ds
  else ds.take (ds.length - places) ++ '.' :: ds.drop (ds.length - places)

/-- A number without an exponent. Zeros at the end of a fraction are not written. -/
def positional (s : Scaled) : List Char :=
  if 0 ≤ s.exponent then digits s.digits ++ zeros s.exponent.toNat
  else withPoint s.digits (-s.exponent).toNat

/-- The text of a double that is no finite number. -/
def special (x : Float) : String := if x.isNaN then "NaN" else if x < 0 then "-inf" else "inf"

/-- The shortest text that reads back. -/
def text (x : Float) : String :=
  match Double.ofFloat? x with
  | none => special x
  | some d =>
    let body := if d.mantissa = 0 then ['0'] else positional (shortest d.mantissa d.exponent)
    String.ofList (if d.negative then '-' :: body else body)

/-- The text with `places` digits after the point. -/
def fixed (places : Nat) (x : Float) : String :=
  match Double.ofFloat? x with
  | none => special x
  | some d =>
    let n := ((Ratio.ofBinary d.mantissa d.exponent).inUnits (-places)).roundEven
    let body := withPoint n places
    String.ofList (if d.negative then '-' :: body else body)

end PdfScene.Decimal
