import Mathlib
import PdfScene.Number.Double

/-!
# Whole numbers as doubles

Up to `2 ^ 53` every whole number is a double, and sums and products that stay below it are exact.
The double of `n` is `Whole.unpacked n`: the bits of `n` moved up until they fill the mantissa. An
operation on doubles rounds an exact result that has zeros below those bits, and rounding drops
nothing but them (`roundWithAccuracy_whole`).
-/

set_option autoImplicit false

namespace PdfScene.Whole

open Float.Model Float.Model.UnpackedFloat

/-! ## The double of a whole number -/

/-- The positive whole number `n` with a full mantissa. -/
def mantissa (n : Nat) : Nat := n * 2 ^ (52 - n.log2)

/-- The whole number `n`, unpacked. -/
def unpacked (n : Nat) : Float.Model.UnpackedFloat :=
  if h : 0 < n then .finite .positive (mantissa n) (n.log2 - 52) (Nat.mul_pos h (Nat.two_pow_pos _))
  else .zero .positive

/-- The double of the whole number `n`. -/
def double (n : Nat) : Float := .ofModel (.pack (unpacked n))

theorem unpacked_pos {n : Nat} (h : 0 < n) : unpacked n =
    .finite .positive (mantissa n) (n.log2 - 52) (Nat.mul_pos h (Nat.two_pow_pos _)) :=
  dif_pos h

theorem log2_le {n : Nat} (h : n < 2 ^ 53) : n.log2 ≤ 52 := by
  by_cases hn : n = 0
  · simp [hn]
  · have := (Nat.log2_lt hn).mpr h
    omega

theorem log2_mul_two_pow {n : Nat} (h : 0 < n) (k : Nat) : (n * 2 ^ k).log2 = n.log2 + k := by
  rw [Nat.log2_eq_iff (Nat.ne_of_gt (Nat.mul_pos h (Nat.two_pow_pos k)))]
  refine ⟨?_, ?_⟩
  · rw [Nat.pow_add]
    exact Nat.mul_le_mul_right _ (Nat.log2_self_le (by omega))
  · rw [Nat.add_right_comm, Nat.pow_add]
    exact Nat.mul_lt_mul_of_pos_right Nat.lt_log2_self (Nat.two_pow_pos k)

theorem log2_mantissa {n : Nat} (h : 0 < n) (hn : n < 2 ^ 53) : (mantissa n).log2 = 52 := by
  have := log2_le hn
  rw [mantissa, log2_mul_two_pow h]
  omega

/-! ## Rounding -/

/-- Zeros at the end of a mantissa are shifted out without a trace. -/
theorem shiftRight_mul_two_pow (m s : Nat) :
    (⟨m * 2 ^ s, false, false⟩ : ExtendedMantissa) >>> s = ⟨m, false, false⟩ := by
  induction s generalizing m with
  | zero => simp [HShiftRight.hShiftRight, Nat.repeat]
  | succ s ih =>
    have hstep : (⟨m * 2 ^ (s + 1), false, false⟩ : ExtendedMantissa) >>> (s + 1) =
        ((⟨m * 2 * 2 ^ s, false, false⟩ : ExtendedMantissa) >>> s).shiftRightOne := by
      rw [Nat.pow_succ', ← Nat.mul_assoc]
      rfl
    rw [hstep, ih]
    simp [ExtendedMantissa.shiftRightOne]

/-- A whole number with enough zeros below it is shifted to its full mantissa. -/
theorem shift_whole {n k : Nat} (h : 0 < n) (hn : n < 2 ^ 53) (hk : 52 ≤ k + n.log2) :
    shiftToTargetExponent Format.binary64 (n * 2 ^ k) (-k) .exact =
      (⟨mantissa n, false, false⟩, (n.log2 : Int) - 52) := by
  have hlog := log2_le hn
  have htarget : Format.binary64.targetExponent (totalExponent (n * 2 ^ k) (-k)) =
      (n.log2 : Int) - 52 := by
    simp only [Format.targetExponent, totalExponent, log2_mul_two_pow h, Format.mantissaBits,
      Format.minExponent]
    omega
  obtain ⟨s, hs⟩ : ∃ s, k = 52 - n.log2 + s := ⟨k + n.log2 - 52, by omega⟩
  have hshift : ((n.log2 : Int) - 52 - -k).toNat = s := by omega
  have hsplit : n * 2 ^ k = mantissa n * 2 ^ s := by
    rw [mantissa, hs, Nat.pow_add, Nat.mul_assoc]
  have hexponent : -(k : Int) + s = n.log2 - 52 := by omega
  simp only [shiftToTargetExponent, htarget, shiftToExponent, hshift,
    ExtendedMantissa.ofMantissaAndAccuracy, hexponent]
  rw [hsplit, shiftRight_mul_two_pow]

/-- **A whole number with enough zeros below it is rounded to itself.** -/
theorem roundWithAccuracy_whole {n k : Nat} (h : 0 < n) (hn : n < 2 ^ 53)
    (hk : 52 ≤ k + n.log2) :
    roundWithAccuracy Format.binary64 .positive (n * 2 ^ k) (-k) .exact = unpacked n := by
  have hlog := log2_le hn
  have hexponent : (n.log2 : Int) - 52 = -((52 - n.log2 : Nat) : Int) := by omega
  have hagain := shift_whole h hn (k := 52 - n.log2) (by omega)
  rw [← mantissa, ← hexponent] at hagain
  have hne : mantissa n ≠ 0 := Nat.ne_of_gt (Nat.mul_pos h (Nat.two_pow_pos _))
  simp only [roundWithAccuracy, shift_whole h hn hk, ExtendedMantissa.roundedMantissa,
    ExtendedMantissa.accuracy, Accuracy.roundToNearestEven, hagain, hne, dite_false,
    unpacked_pos h]

/-- So it is where rounding has to add the zeros. -/
theorem round_whole {n k : Nat} (h : 0 < n) (hn : n < 2 ^ 53) :
    UnpackedFloat.round Format.binary64 .positive (n * 2 ^ k) (-k) = unpacked n := by
  have hlog := log2_le hn
  have htarget : Format.binary64.targetExponent (totalExponent (n * 2 ^ k) (-k)) =
      (n.log2 : Int) - 52 := by
    simp only [Format.targetExponent, totalExponent, log2_mul_two_pow h, Format.mantissaBits,
      Format.minExponent]
    omega
  obtain ⟨z, hz⟩ : ∃ z : Nat, (-(k : Int) - (n.log2 - 52)).toNat = z := ⟨_, rfl⟩
  have hexponent : -(k : Int) - z = -((k + z : Nat) : Int) := by omega
  simp only [UnpackedFloat.round, htarget, decreaseExponent, hz, Nat.shiftLeft_eq, Nat.mul_assoc,
    ← Nat.pow_add, hexponent]
  exact roundWithAccuracy_whole h hn (by omega)

/-! ## Arithmetic -/

theorem mul_unpacked {a b : Nat} (ha : a < 2 ^ 53) (hb : b < 2 ^ 53) (hab : a * b < 2 ^ 53) :
    UnpackedFloat.mul Format.binary64 (unpacked a) (unpacked b) = unpacked (a * b) := by
  rcases Nat.eq_zero_or_pos a with rfl | hapos
  · rw [Nat.zero_mul]
    rcases Nat.eq_zero_or_pos b with rfl | hbpos
    · rfl
    · rw [unpacked_pos hbpos]; rfl
  · rcases Nat.eq_zero_or_pos b with rfl | hbpos
    · rw [unpacked_pos hapos]; rfl
    · have halog := log2_le ha
      have hblog := log2_le hb
      have hlog : a.log2 ≤ (a * b).log2 := by
        rw [Nat.le_log2 (Nat.ne_of_gt (Nat.mul_pos hapos hbpos))]
        exact Nat.le_trans (Nat.log2_self_le (Nat.ne_of_gt hapos)) (Nat.le_mul_of_pos_right a hbpos)
      rw [unpacked_pos hapos, unpacked_pos hbpos]
      have hproduct : mantissa a * mantissa b = a * b * 2 ^ (52 - a.log2 + (52 - b.log2)) := by
        rw [mantissa, mantissa, Nat.pow_add]
        ac_rfl
      have hexponent : ((a.log2 : Int) - 52 + (b.log2 - 52)) =
          -((52 - a.log2 + (52 - b.log2) : Nat) : Int) := by omega
      simp only [UnpackedFloat.mul, hproduct, hexponent]
      exact roundWithAccuracy_whole (Nat.mul_pos hapos hbpos) hab (by omega)

theorem decreaseExponent_whole {a k : Nat} (ha : a < 2 ^ 53) (hk : 52 ≤ k + a.log2) :
    (decreaseExponent (mantissa a) ((a.log2 : Int) - 52) (-k)).1 = a * 2 ^ k := by
  have := log2_le ha
  have hshift : ((a.log2 : Int) - 52 - -k).toNat = k + a.log2 - 52 := by omega
  simp only [decreaseExponent, hshift, mantissa, Nat.shiftLeft_eq, Nat.mul_assoc, ← Nat.pow_add]
  congr 2
  omega

theorem add_unpacked {a b : Nat} (hab : a + b < 2 ^ 53) :
    UnpackedFloat.add Format.binary64 (unpacked a) (unpacked b) = unpacked (a + b) := by
  rcases Nat.eq_zero_or_pos a with rfl | hapos
  · rw [Nat.zero_add]
    rcases Nat.eq_zero_or_pos b with rfl | hbpos
    · rfl
    · rw [unpacked_pos hbpos]; rfl
  · rcases Nat.eq_zero_or_pos b with rfl | hbpos
    · rw [Nat.add_zero, unpacked_pos hapos]; rfl
    · have ha : a < 2 ^ 53 := by omega
      have hb : b < 2 ^ 53 := by omega
      have halog := log2_le ha
      have hblog := log2_le hb
      -- both are moved down to the smaller of the two exponents
      obtain ⟨k, hk⟩ : ∃ k : Nat, min ((a.log2 : Int) - 52) (b.log2 - 52) = -k :=
        ⟨52 - min a.log2 b.log2, by omega⟩
      have hpos : 0 < (a + b) * 2 ^ k := Nat.mul_pos (by omega) (Nat.two_pow_pos k)
      have hsum : ((a * 2 ^ k : Nat) : Int) + (b * 2 ^ k : Nat) = ((a + b) * 2 ^ k : Nat) := by
        rw [Nat.add_mul]; rfl
      rw [unpacked_pos hapos, unpacked_pos hbpos]
      simp only [UnpackedFloat.add, hk, decreaseExponent_whole ha (k := k) (by omega),
        decreaseExponent_whole hb (k := k) (by omega), Sign.apply, hsum,
        UnpackedFloat.normalize, Int.compare_eq_gt.mpr (Int.natCast_pos.mpr hpos), Int.toNat_natCast]
      exact round_whole (by omega) hab

/-! ## Packing -/

theorem unpackSign_packComponents (spec : Format) (s : Sign) (e : BitVec spec.exponentBits)
    (m : BitVec spec.mantissaBitsWithoutImplicit) :
    unpackSign (packComponents spec s e m) = s.toBitVec := by
  ext i hi
  obtain rfl : i = 0 := by omega
  simp [unpackSign, packComponents, BitVec.getLsbD_append, BitVec.getElem_append]

/-- **The double of a whole number holds that number.** -/
theorem unpack_double {n : Nat} (hn : n < 2 ^ 53) : (double n).toModel.unpack = unpacked n := by
  rcases Nat.eq_zero_or_pos n with rfl | h
  · rfl
  · have hlog := log2_le hn
    have hmantissa := log2_mantissa h hn
    have hpos : mantissa n ≠ 0 := Nat.ne_of_gt (Nat.mul_pos h (Nat.two_pow_pos _))
    obtain ⟨hlow, hhigh⟩ := (Nat.log2_eq_iff hpos).mp hmantissa
    -- neither all zeros nor all ones, which stand for zeros and for what is not finite
    have hbits : (BitVec.ofNat 11 (n.log2 + 1023)).toNat = n.log2 + 1023 := by
      rw [BitVec.toNat_ofNat, Nat.mod_eq_of_lt (by omega)]
    have hones : BitVec.ofNat 11 (n.log2 + 1023) ≠ -1#11 := fun heq => by
      have := congrArg BitVec.toNat heq
      simp [hbits] at this
      omega
    have hzeros : BitVec.ofNat 11 (n.log2 + 1023) ≠ 0#11 := fun heq => by
      have := congrArg BitVec.toNat heq
      simp [hbits] at this
    have himplicit : (1#1 ++ BitVec.ofNat 52 (mantissa n)).toNat = mantissa n := by
      rw [BitVec.toNat_append, ← Nat.shiftLeft_add_eq_or_of_lt (BitVec.isLt _)]
      simp only [BitVec.toNat_ofNat, Nat.shiftLeft_eq]
      omega
    have hbiased : ((n.log2 : Int) - 52 + Format.binary64.exponentBias + (52 : Nat)).toNat =
        n.log2 + 1023 := by
      simp only [Format.exponentBias]
      omega
    have hpacked : UnpackedFloat.pack Format.binary64 (unpacked n) =
        packComponents Format.binary64 .positive (BitVec.ofNat 11 (n.log2 + 1023))
          (BitVec.ofNat 52 (mantissa n)) := by
      rw [unpacked_pos h]
      simp only [UnpackedFloat.pack, hbiased, hmantissa, Format.mantissaBits]
      rw [if_neg (by omega), if_pos trivial]
    have hback : (double n).toModel.unpack =
        UnpackedFloat.unpack Format.binary64 (UnpackedFloat.pack Format.binary64 (unpacked n)) := rfl
    rw [hback, hpacked]
    have hexponent : ((n.log2 + 1023 : Nat) : Int) -
        (Format.binary64.exponentBias + (52 : Nat)) = n.log2 - 52 := by
      simp only [Format.exponentBias]
      omega
    simp only [UnpackedFloat.unpack, unpackMantissa_packComponents, unpackExponent_packComponents,
      unpackSign_packComponents, hones, hzeros, if_false, hbits, himplicit, hexponent]
    rw [unpacked_pos h]
    rfl

/-! ## Doubles of whole numbers -/

theorem double_mul {a b : Nat} (ha : a < 2 ^ 53) (hb : b < 2 ^ 53) (hab : a * b < 2 ^ 53) :
    double a * double b = double (a * b) := by
  show Float.ofModel (.pack (UnpackedFloat.mul Format.binary64 (double a).toModel.unpack
    (double b).toModel.unpack)) = _
  rw [unpack_double ha, unpack_double hb, mul_unpacked ha hb hab]
  rfl

theorem double_add {a b : Nat} (hab : a + b < 2 ^ 53) : double a + double b = double (a + b) := by
  show Float.ofModel (.pack (UnpackedFloat.add Format.binary64 (double a).toModel.unpack
    (double b).toModel.unpack)) = _
  rw [unpack_double (by omega), unpack_double (by omega), add_unpacked hab]
  rfl

/-- A double that stands for a natural number is the number's double. -/
theorem ofNat_eq_double {n : Nat} (hn : n < 2 ^ 53) : Float.ofNat n = double n := by
  have hone : Float.ofBits 0x3FF0000000000000 = double 1 := by decide
  have hnat : n.toUInt64.toNat = n := by
    rw [Nat.toUInt64_eq, UInt64.toNat_ofNat']
    omega
  have hunpacked : UnpackedFloat.ofNat Format.binary64 n = unpacked n := by
    rcases Nat.eq_zero_or_pos n with rfl | h
    · rfl
    · have hround := round_whole h hn (k := 0)
      simp only [Nat.pow_zero, Nat.mul_one] at hround
      simp only [UnpackedFloat.ofNat, UnpackedFloat.ofInt, UnpackedFloat.normalize,
        Int.compare_eq_gt.mpr (Int.natCast_pos.mpr h), Int.toNat_natCast]
      exact hround
  have hfloat : n.toUInt64.toFloat = double n := by
    show Float.ofModel (.pack (UnpackedFloat.ofNat Format.binary64 n.toUInt64.toNat)) = _
    rw [hnat, hunpacked]
    rfl
  have hofNat : Float.ofNat n = n.toUInt64.toFloat * Float.ofBits 0x3FF0000000000000 := by
    show Float.ofScientific n false 0 = _
    unfold Float.ofScientific
    rw [dif_pos ⟨hn, by decide⟩]
    rfl
  rw [hofNat, hfloat, hone, double_mul hn (by decide) (by omega), Nat.mul_one]

theorem isFinite_double {n : Nat} (hn : n < 2 ^ 53) : (double n).isFinite = true := by
  show (double n).toModel.unpack.isFinite = true
  rw [unpack_double hn, unpacked]
  split <;> rfl

theorem zero_le_double {n : Nat} (hn : n < 2 ^ 53) : (0 : Float) ≤ double n := by
  have hzero : (0 : Float) = double 0 := ofNat_eq_double (by decide)
  have hle : UnpackedFloat.le (double 0).toModel.unpack (double n).toModel.unpack = true := by
    rw [unpack_double (by decide), unpack_double hn]
    rcases Nat.eq_zero_or_pos n with rfl | h
    · rfl
    · rw [unpacked_pos h]
      rfl
  rw [hzero]
  exact decide_eq_true hle

theorem toInt_unpacked {n : Nat} (hn : n < 2 ^ 53) (least greatest : Int) :
    (unpacked n).toInt least greatest = n := by
  rcases Nat.eq_zero_or_pos n with rfl | h
  · rfl
  · rw [unpacked_pos h]
    have hlog := log2_le hn
    have hup : ((n.log2 : Int) - 52).toNat = 0 := by omega
    have hdown : (0 - ((n.log2 : Int) - 52)).toNat = 52 - n.log2 := by omega
    simp only [UnpackedFloat.toInt, roundToInt, decreaseExponent, Int.sub_zero, hup,
      Nat.shiftLeft_zero, shiftToExponent, Int.ofNat_zero, hdown,
      ExtendedMantissa.ofMantissaAndAccuracy, mantissa, shiftRight_mul_two_pow, Sign.apply]

/-- **A whole number comes back from its double**, or the greatest one of 32 bits if it is past
those. -/
theorem toUInt32_double {n : Nat} (hn : n < 2 ^ 53) :
    (double n).toUInt32 = UInt32.ofNatClamp n := by
  show UInt32.ofNatClamp ((double n).toModel.unpack.toInt 0 (UInt32.size - 1)).toNat = _
  rw [unpack_double hn, toInt_unpacked hn, Int.toNat_natCast]

/-- All of them are within 64 bits. -/
theorem toUInt64_double {n : Nat} (hn : n < 2 ^ 53) : (double n).toUInt64.toNat = n := by
  show (UInt64.ofNatClamp ((double n).toModel.unpack.toInt 0 (UInt64.size - 1)).toNat).toNat = n
  have hsize : n < UInt64.size := Nat.lt_trans hn (by decide)
  rw [unpack_double hn, toInt_unpacked hn, Int.toNat_natCast, UInt64.ofNatClamp, dif_pos hsize]
  rfl

theorem floatToInt_double {n : Nat} (hn : n < 2 ^ 53) : floatToInt (double n) = n := by
  have hzero : (0 : Float) = double 0 := ofNat_eq_double (by decide)
  have hlt : UnpackedFloat.lt (double n).toModel.unpack (double 0).toModel.unpack = false := by
    rw [unpack_double hn, unpack_double (by decide)]
    rcases Nat.eq_zero_or_pos n with rfl | h
    · rfl
    · rw [unpacked_pos h]
      rfl
  have hnegative : ¬ double n < 0 := by
    rw [hzero]
    intro h
    have hmodel : (double n).toModel < (double 0).toModel := of_decide_eq_true h
    exact Bool.false_ne_true (hlt.symm.trans hmodel)
  have hgreatest : Int64.maxValue.toInt = 2 ^ 63 - 1 := by decide
  rw [floatToInt, if_neg hnegative, toUInt64_double hn, hgreatest]
  omega

end PdfScene.Whole
