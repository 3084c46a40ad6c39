import PdfScene.Lexical.Byte

/-!
# Numerals

A numeral is a sign, digits with at most one point among them, and perhaps an exponent. Files in
the wild stretch this, and the reader goes along: a second leading minus and minus signs between
digits count for nothing, line ends may follow the sign, and a sign or point without a digit after
it is zero. An `e` is an exponent only where a digit or sign follows; otherwise it starts the next
word.

The value is the digits as one integer, scaled once by a power of ten. A value past the finite
doubles is read as zero.
-/

set_option autoImplicit false

namespace PdfScene

/-- The digits of a numeral read so far. -/
structure Numeral where
  mantissa : Float
  /-- How many digits stand after the point. -/
  places : Nat
  /-- Whether the point has been read. -/
  fraction : Bool

namespace Numeral

open Byte

/-- Powers of ten by repeated squaring: `power * square ^ n`. -/
def powerBySquaring (power square : Float) (n : Nat) : Float :=
  if n = 0 then power
  else powerBySquaring (if n % 2 = 1 then power * square else power) (square * square) (n / 2)
termination_by n
decreasing_by omega

/-- `10 ^ n`. -/
def powerOfTen (n : Nat) : Float := powerBySquaring 1 10 n

/-- The largest exponent kept apart from greater ones. -/
def exponentLimit : Nat := 2147483647

/-- Scales beyond this leave the range of doubles for every mantissa. -/
def scaleLimit : Int := 400

/-- Digits, a first point and minus signs, up to the first other byte. -/
def digits (n : Numeral) : Bytes → Numeral × Bytes
  | [] => (n, [])
  | c :: rest =>
    if isDigit c then
      digits { n with
        mantissa := n.mantissa * 10 + (digitValue c).toFloat
        places := if n.fraction then n.places + 1 else n.places } rest
    else if c == 0x2E && !n.fraction then digits { n with fraction := true } rest
    else if c == 0x2D then digits n rest
    else (n, c :: rest)

/-- The digits of an exponent whose value so far is `e`. -/
def exponentDigits (e : Nat) : Bytes → Nat × Bytes
  | [] => (e, [])
  | c :: rest =>
    if isDigit c then
      exponentDigits (min exponentLimit (min exponentLimit (e * 10) + digitValue c)) rest
    else (e, c :: rest)

/-- The exponent at the front, zero if there is none. -/
def exponent (bs : Bytes) : Int × Bytes :=
  match bs with
  | e :: c :: rest =>
    if e == 0x65 || e == 0x45 then
      if c == 0x2B then
        let (n, rest) := exponentDigits 0 rest
        (n, rest)
      else if c == 0x2D then
        let (n, rest) := exponentDigits 0 rest
        (-(n : Int), rest)
      else if isDigit c then
        let (n, rest) := exponentDigits 0 (c :: rest)
        (n, rest)
      else (0, bs)
    else (0, bs)
  | _ => (0, bs)

/-- The value of the digits under an exponent, if it is finite. -/
def value? (n : Numeral) (exponent : Int) : Option Float :=
  let scale := max (-scaleLimit) (min scaleLimit (exponent - n.places))
  let magnitude :=
    if 0 ≤ scale then n.mantissa * powerOfTen scale.toNat
    else n.mantissa / powerOfTen (-scale).toNat
  if magnitude.isFinite then some magnitude else none

/-- The sign at the front. A minus may be doubled. -/
def sign (bs : Bytes) : Bool × Bytes :=
  match bs with
  | c :: rest =>
    if c == 0x2D then
      (true, match rest with
        | d :: rest' => if d == 0x2D then rest' else rest
        | [] => [])
    else if c == 0x2B then (false, rest)
    else (false, bs)
  | [] => (false, [])

def point (bs : Bytes) : Bool × Bytes :=
  match bs with
  | c :: rest => if c == 0x2E then (true, rest) else (false, bs)
  | [] => (false, [])

/-- The number whose sign and leading point have been read, zero if no digit follows them. -/
def scanDigits (negative fraction : Bool) (bs : Bytes) : Float × Bytes :=
  match bs with
  | [] => (0, [])
  | c :: _ =>
    if isDigit c then
      let (n, bs) := digits ⟨0, 0, fraction⟩ bs
      let (e, bs) := exponent bs
      match n.value? e with
      | some magnitude => (if negative then -magnitude else magnitude, bs)
      | none => (0, bs)
    else (0, bs)

/-- The number at the front and what follows it. Input that opens a numeral gives a number,
whatever comes after. -/
def scan (bs : Bytes) : Float × Bytes :=
  let signed := sign bs
  let pointed := point (signed.2.dropWhile isLineEnd)
  scanDigits signed.1 pointed.1 pointed.2

/-! ## What is left after a numeral -/

theorem digits_length_le (n : Numeral) (bs : Bytes) : (n.digits bs).2.length ≤ bs.length := by
  fun_induction digits n bs with
  | case1 => simp
  | case2 _ _ _ _ ih => simp only [List.length_cons]; omega
  | case3 _ _ _ _ _ ih => simp only [List.length_cons]; omega
  | case4 _ _ _ _ _ _ ih => simp only [List.length_cons]; omega
  | case5 => simp

theorem exponentDigits_length_le (e : Nat) (bs : Bytes) :
    (exponentDigits e bs).2.length ≤ bs.length := by
  fun_induction exponentDigits e bs with
  | case1 => simp
  | case2 _ _ _ _ ih => simp only [List.length_cons]; omega
  | case3 => simp

theorem exponent_length_le (bs : Bytes) : (exponent bs).2.length ≤ bs.length := by
  unfold exponent
  split
  · rename_i e c rest
    have h1 := exponentDigits_length_le 0 rest
    have h2 := exponentDigits_length_le 0 (c :: rest)
    simp only [List.length_cons] at h2 ⊢
    split
    · split
      · simp only; omega
      · split
        · simp only; omega
        · split
          · simp only; omega
          · simp
    · simp
  · simp

theorem point_length_le (bs : Bytes) : (point bs).2.length ≤ bs.length := by
  unfold point
  split
  · split <;> simp
  · simp

theorem scanDigits_length_le (negative fraction : Bool) (bs : Bytes) :
    (scanDigits negative fraction bs).2.length ≤ bs.length := by
  unfold scanDigits
  split
  · simp
  · split
    · rename_i c rest _
      have h1 := digits_length_le ⟨0, 0, fraction⟩ (c :: rest)
      have h2 := exponent_length_le (digits ⟨0, 0, fraction⟩ (c :: rest)).2
      simp only
      split <;> simp only <;> omega
    · simp

/-- A first digit is read. -/
theorem scanDigits_length_lt (negative fraction : Bool) (c : UInt8) (rest : Bytes)
    (h : isDigit c = true) :
    (scanDigits negative fraction (c :: rest)).2.length < (c :: rest).length := by
  have h1 : (digits ⟨0, 0, fraction⟩ (c :: rest)).2.length ≤ rest.length := by
    rw [digits, if_pos h]
    exact digits_length_le _ _
  have h2 := exponent_length_le (digits ⟨0, 0, fraction⟩ (c :: rest)).2
  simp only [scanDigits, h, if_true]
  split <;> simp only [List.length_cons] <;> omega

/-- A byte that opens a numeral is read. -/
theorem scan_length_lt (c : UInt8) (rest : Bytes) (h : opensNumeral c = true) :
    (scan (c :: rest)).2.length < (c :: rest).length := by
  have drop (bs : Bytes) : (bs.dropWhile isLineEnd).length ≤ bs.length :=
    (List.dropWhile_sublist _).length_le
  -- the sign or the point is gone before the digits are read
  have opened (h : (point ((sign (c :: rest)).2.dropWhile isLineEnd)).2.length ≤ rest.length) :
      (scan (c :: rest)).2.length < (c :: rest).length :=
    Nat.lt_succ_of_le (Nat.le_trans (scanDigits_length_le _ _ _) h)
  have signed (h : (sign (c :: rest)).2.length ≤ rest.length) :
      (scan (c :: rest)).2.length < (c :: rest).length :=
    opened (Nat.le_trans (point_length_le _) (Nat.le_trans (drop _) h))
  simp only [opensNumeral, Bool.or_eq_true, beq_iff_eq] at h
  rcases h with ((h | h) | h) | h
  · have plain (b : UInt8) (hb : isDigit b = false) : (c == b) = false := by
      simp only [beq_eq_false_iff_ne]
      rintro rfl
      simp [h] at hb
    have line : isLineEnd c = false := by
      simp [isLineEnd, plain 0x0D (by decide), plain 0x0A (by decide)]
    simp only [scan, sign, plain 0x2D (by decide), plain 0x2B (by decide), Bool.false_eq_true,
      if_false, List.dropWhile_cons, line, point, plain 0x2E (by decide)]
    exact scanDigits_length_lt _ _ c rest h
  · subst h
    exact signed (by simp [sign])
  · subst h
    refine signed ?_
    simp only [sign, beq_self_eq_true, if_true]
    split
    · split <;> simp
    · simp
  · subst h
    exact opened (by simp [sign, isLineEnd, point])

end Numeral

end PdfScene
