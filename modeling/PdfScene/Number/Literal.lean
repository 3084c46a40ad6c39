import PdfScene.Number.Decimal

/-!
# Decimal texts as doubles

The other direction of decimal texts: an optional sign, then digits with an optional point among or
around them and an optional power of ten, or one of the words for what is no finite number. Nothing
may stand before or behind. The text stands for the double nearest to it.
-/

set_option autoImplicit false

namespace PdfScene.Decimal

/-- The number that digits are in base ten. -/
def ofDigits (ds : List Char) : Nat := ds.foldl (fun n d => n * 10 + (d.toNat - '0'.toNat)) 0

/-- A sign, if there is one, and the rest. -/
def splitSign : List Char → Bool × List Char
  | '-' :: rest => (true, rest)
  | '+' :: rest => (false, rest)
  | cs => (false, cs)

/-- The power of ten that the end of a text states; zero for no text. -/
def exponent? : List Char → Option Int
  | [] => some 0
  | e :: cs =>
    let (negative, ds) := splitSign cs
    if (e = 'e' ∨ e = 'E') ∧ ds ≠ [] ∧ ds.all Char.isDigit then
      some (if negative then -(ofDigits ds : Int) else ofDigits ds)
    else none

/-- The double nearest to `digits * 10 ^ exponent`. Exponents far out of the range of doubles are
brought near it, which leaves the double as it is. -/
def nearest (digits : Nat) (exponent : Int) : Float :=
  let length : Int := (Decimal.digits digits).length
  let e := max (-400 - length) (min 400 exponent)
  if e < 0 then Float.ofScientific digits true (-e).toNat
  else Float.ofScientific digits false e.toNat

/-- The double of a text without a sign. -/
def unsigned? (cs : List Char) : Option Float :=
  let word := (String.ofList cs).toLower
  if word = "inf" ∨ word = "infinity" then some (1 / 0)
  else if word = "nan" then some (0 / 0)
  else
    let whole := cs.takeWhile Char.isDigit
    let rest := cs.dropWhile Char.isDigit
    let (fraction, rest) :=
      match rest with
      | '.' :: rest => (rest.takeWhile Char.isDigit, rest.dropWhile Char.isDigit)
      | rest => ([], rest)
    if whole.isEmpty && fraction.isEmpty then none
    else
      (exponent? rest).map fun e => nearest (ofDigits (whole ++ fraction)) (e - fraction.length)

def parse? (s : String) : Option Float :=
  let (negative, cs) := splitSign s.toList
  (unsigned? cs).map fun x => if negative then -x else x

end PdfScene.Decimal
