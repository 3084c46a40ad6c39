import PdfScene.Object.Reader
import PdfScene.Proofs.Lexical.LineFeed
import PdfScene.Proofs.Number.Whole

/-!
# Numbers written in digits

A run of digits before a blank is read as the number it writes: `Token.scan_digits`. Numerals are
read as doubles, which are exact below `2 ^ 53`.
-/

set_option autoImplicit false

namespace PdfScene

open Byte

/-! ## Digits -/

namespace Byte

/-- A byte that ends a token stands in no number. -/
theorem isDigit_of_endsToken {b : UInt8} (h : endsToken b = true) : isDigit b = false :=
  (not_digit_of_endsToken h).1

theorem endsToken_of_isDigit {b : UInt8} (h : isDigit b = true) : endsToken b = false := by
  rw [Bool.eq_false_iff]
  intro hends
  rw [isDigit_of_endsToken hends] at h
  cases h

theorem isBlank_of_isDigit {b : UInt8} (h : isDigit b = true) : isBlank b = false :=
  (Bool.or_eq_false_iff.mp (endsToken_of_isDigit h)).1

theorem digitValue_lt {b : UInt8} (h : isDigit b = true) : digitValue b < 10 := by
  simp only [isDigit, Bool.and_eq_true, decide_eq_true_eq, UInt8.le_iff_toNat_le] at h
  have hsub : (b - 0x30).toNat = b.toNat - 48 := UInt8.toNat_sub_of_le _ _ h.1
  have := h.2
  simp only [digitValue, hsub, UInt8.reduceToNat] at *
  omega

end Byte

/-- The number that some digits write after those that write `n`. -/
def decimalFrom (n : Nat) (ds : Bytes) : Nat := ds.foldl (fun n d => n * 10 + digitValue d) n

theorem le_decimalFrom (n : Nat) (ds : Bytes) : n ≤ decimalFrom n ds := by
  induction ds generalizing n with
  | nil => exact Nat.le_refl n
  | cons d ds ih => exact Nat.le_trans (by omega) (ih (n * 10 + digitValue d))

/-- A run of digits. -/
structure Digits where
  bytes : Bytes
  nonempty : bytes ≠ []
  digits : ∀ b ∈ bytes, isDigit b = true

/-- The number that digits write. -/
def Digits.value (ds : Digits) : Nat := decimalFrom 0 ds.bytes

/-- The digit of a number below ten. -/
def Digits.single (n : Nat) (h : n < 10) : Digits where
  bytes := [0x30 + UInt8.ofNat n]
  nonempty := List.cons_ne_nil _ _
  digits := by
    have hdigit : ∀ n : Fin 10, isDigit (0x30 + UInt8.ofNat n.val) = true := by decide
    exact List.forall_mem_singleton.mpr (hdigit ⟨n, h⟩)

/-! ## Reading them -/

namespace Numeral

open Whole

theorem digits_append {n : Nat} {ds rest : Bytes} (hds : ∀ b ∈ ds, isDigit b = true)
    (hfits : decimalFrom n ds < 2 ^ 53) :
    digits ⟨double n, 0, false⟩ (ds ++ 0x20 :: rest) =
      (⟨double (decimalFrom n ds), 0, false⟩, 0x20 :: rest) := by
  induction ds generalizing n with
  | nil => rfl
  | cons d ds ih =>
    obtain ⟨hd, hds⟩ := List.forall_mem_cons.mp hds
    have hvalue := digitValue_lt hd
    have hnext : n * 10 + digitValue d < 2 ^ 53 :=
      Nat.lt_of_le_of_lt (le_decimalFrom _ ds) hfits
    have hten : (10 : Float) = double 10 := ofNat_eq_double (by decide)
    have hmantissa : double n * 10 + (digitValue d).toFloat = double (n * 10 + digitValue d) := by
      rw [hten, double_mul (by omega) (by decide) (by omega), Nat.toFloat,
        ofNat_eq_double (by omega), double_add hnext]
    rw [List.cons_append, digits, if_pos hd]
    dsimp only
    rw [hmantissa]
    exact ih hds hfits

/-- A number is its own value if it has no exponent. -/
theorem value?_double {n : Nat} (hn : n < 2 ^ 53) :
    value? ⟨double n, 0, false⟩ 0 = some (double n) := by
  have hone : powerOfTen 0 = double 1 := by
    rw [powerOfTen, powerBySquaring, if_pos rfl]
    exact ofNat_eq_double (by decide)
  have hmagnitude : double n * powerOfTen 0 = double n := by
    rw [hone, double_mul hn (by decide) (by omega), Nat.mul_one]
  have hscale : max (-scaleLimit) (min scaleLimit ((0 : Int) - (0 : Nat))) = 0 := by decide
  simp only [value?, hscale, Int.le_refl, if_true, Int.toNat_zero, hmagnitude, isFinite_double hn]

/-- **Digits before a blank are read as the number they write.** -/
theorem scan_digits (ds : Digits) (hexact : ds.value < 2 ^ 53) (rest : Bytes) :
    scan (ds.bytes ++ 0x20 :: rest) = (double ds.value, 0x20 :: rest) := by
  obtain ⟨bytes, hne, hdigits⟩ := ds
  obtain ⟨d, bytes, rfl⟩ := List.exists_cons_of_ne_nil hne
  have hd := (List.forall_mem_cons.mp hdigits).1
  -- neither a sign nor a line end nor a point comes before the first digit
  have hnot : ∀ b, isDigit b = false → (d == b) = false := fun b hb => by
    rw [beq_eq_false_iff_ne]
    rintro rfl
    rw [hd] at hb
    cases hb
  have hread : digits ⟨0, 0, false⟩ (d :: bytes ++ 0x20 :: rest) =
      (⟨double (decimalFrom 0 (d :: bytes)), 0, false⟩, 0x20 :: rest) := by
    have hzero : (0 : Float) = double 0 := ofNat_eq_double (by decide)
    rw [hzero]
    exact digits_append hdigits hexact
  have hexponent : exponent (0x20 :: rest) = (0, 0x20 :: rest) := by
    cases rest <;> rfl
  have hvalue : value? ⟨double (decimalFrom 0 (d :: bytes)), 0, false⟩ 0 =
      some (double (decimalFrom 0 (d :: bytes))) := value?_double hexact
  rw [List.cons_append] at hread
  simp only [scan, sign, List.cons_append, hnot 0x2D rfl, hnot 0x2B rfl, Bool.false_eq_true,
    if_false, List.dropWhile_cons, isLineEnd, hnot 0x0D rfl, hnot 0x0A rfl, Bool.or_self, point,
    hnot 0x2E rfl, scanDigits, hd, if_true, hread, hexponent, hvalue, Digits.value]

end Numeral

namespace Token

/-- The first of some digits starts a token. -/
theorem skipBlanks_digits (ds : Digits) (rest : Bytes) :
    skipBlanks false (ds.bytes ++ rest) = ds.bytes ++ rest := by
  obtain ⟨bytes, hne, hdigits⟩ := ds
  obtain ⟨d, bytes, rfl⟩ := List.exists_cons_of_ne_nil hne
  have hd := (List.forall_mem_cons.mp hdigits).1
  have hends := endsToken_of_isDigit hd
  have hpercent : (d == 0x25) = false :=
    (Bool.or_eq_false_iff.mp (Bool.or_eq_false_iff.mp hends).2).2
  simp only [List.cons_append, skipBlanks, Bool.false_eq_true, if_false, hpercent,
    isBlank_of_isDigit hd]

theorem scan_digits (ds : Digits) (hexact : ds.value < 2 ^ 53) (rest : Bytes) :
    scan (ds.bytes ++ 0x20 :: rest) = (.ok (.num (Whole.double ds.value)), 0x20 :: rest) := by
  have hread := Numeral.scan_digits ds hexact rest
  rw [scan, skipBlanks_digits]
  obtain ⟨bytes, hne, hdigits⟩ := ds
  obtain ⟨d, bytes, rfl⟩ := List.exists_cons_of_ne_nil hne
  have hd : opensNumeral d = true := by
    simp [opensNumeral, (List.forall_mem_cons.mp hdigits).1]
  dsimp only at hread ⊢
  rw [List.cons_append] at hread ⊢
  dsimp only
  rw [scanFrom, if_pos hd, hread]

end Token

namespace Lookahead

theorem nextToken_eq (bs : Bytes) : nextToken bs =
    match Token.scan bs with
    | (.ok t, rest) => (t, rest)
    | (.error _, rest) => nextToken rest := by
  rw [nextToken]
  split <;> rename_i h <;> rw [h]

/-- A byte that starts a numeral. -/
theorem nextToken_numeral {c : UInt8} (h : opensNumeral c = true) (rest : Bytes) :
    nextToken (c :: rest) = (.num (Numeral.scan (c :: rest)).1, (Numeral.scan (c :: rest)).2) := by
  rw [nextToken_eq, Token.scan_cons (Token.skipBlanks_numeral h rest), Token.scanFrom, if_pos h]

theorem nextToken_digits (ds : Digits) (hexact : ds.value < 2 ^ 53) (rest : Bytes) :
    nextToken (ds.bytes ++ 0x20 :: rest) = (.num (Whole.double ds.value), 0x20 :: rest) := by
  rw [nextToken_eq, Token.scan_digits ds hexact]

/-- A blank before a token is skipped. -/
theorem nextToken_space (bs : Bytes) : nextToken (0x20 :: bs) = nextToken bs := by
  have hscan : Token.scan (0x20 :: bs) = Token.scan bs := rfl
  rw [nextToken_eq, nextToken_eq bs, hscan]

/-- Digits in view are an index, the greatest one if the number is past those. -/
theorem readIndex_digits (fault : ObjectFault) (ds : Digits) (hexact : ds.value < 2 ^ 53)
    {view : Lookahead} (h : view.first = .num (Whole.double ds.value)) :
    view.readIndex fault = (.ok (UInt32.ofNatClamp ds.value), view.shift) := by
  simp only [readIndex, h, Whole.zero_le_double hexact, if_true, Whole.toUInt32_double hexact]

/-- Two numbers in digits are both in view. -/
theorem ofBytes_digits (first second : Digits) (hfirst : first.value < 2 ^ 53)
    (hsecond : second.value < 2 ^ 53) (rest : Bytes) :
    ofBytes (first.bytes ++ 0x20 :: (second.bytes ++ 0x20 :: rest)) =
      ⟨.num (Whole.double first.value), .num (Whole.double second.value), 0x20 :: rest⟩ := by
  simp only [ofBytes, nextToken_digits first hfirst, nextToken_space,
    nextToken_digits second hsecond]

end Lookahead

end PdfScene
