import Mathlib
import PdfScene.Number.Scalar

/-!
# Exact scalars

Doubles round, so where a page comes to lie is true of them but for noise. The geometry is written
over any scalars, and read over the reals the same definitions compute without rounding: what is said
of them there is what the formulas mean.

Operations of scalars over the reals are those of the reals, and the lemmas here say so one by one.
The one that the reals do not have is what division toward zero leaves over: it differs from what is
divided by a whole number of divisors (`exists_remainder_eq`) and is smaller than one of them
(`abs_remainder_lt`).
-/

set_option autoImplicit false

namespace PdfScene

namespace Scalar

/-- The whole number that is left of a number whose decimal places are cut off. -/
noncomputable def cutOff (x : ℝ) : ℤ := if 0 ≤ x then ⌊x⌋ else ⌈x⌉

/-- Numbers that are never rounded. -/
noncomputable instance real : Scalar ℝ where
  decLt := Real.decidableLT
  decLe := Real.decidableLE
  beq := fun x y => decide (x = y)
  lesser := min
  greater := max
  abs := fun x => |x|
  remainder := fun x y => x - y * cutOff (x / y)
  decimal := fun n places => n / 10 ^ places

variable (x y : ℝ)

@[simp] theorem lesser_real : lesser x y = min x y := rfl

@[simp] theorem greater_real : greater x y = max x y := rfl

@[simp] theorem abs_real : Scalar.abs x = |x| := rfl

@[simp] theorem decimal_real (n : ℤ) (places : ℕ) : (decimal n places : ℝ) = n / 10 ^ places := rfl

@[simp] theorem beq_real : (x == y) = decide (x = y) := rfl

/-! ## Whole numbers -/

@[simp] theorem zero_real : @OfNat.ofNat ℝ 0 (instOfNatOfScalar 0) = 0 := by
  change ((0 : ℕ) : ℤ) / (10 : ℝ) ^ 0 = 0
  simp

@[simp] theorem one_real : @OfNat.ofNat ℝ 1 (instOfNatOfScalar 1) = 1 := by
  change ((1 : ℕ) : ℤ) / (10 : ℝ) ^ 0 = 1
  simp

@[simp] theorem ofNat_real (n : ℕ) [n.AtLeastTwo] :
    @OfNat.ofNat ℝ n (instOfNatOfScalar n) = OfNat.ofNat n := by
  change ((n : ℕ) : ℤ) / (10 : ℝ) ^ 0 = OfNat.ofNat n
  rw [pow_zero, div_one, Int.cast_natCast]
  rfl

/-! ## What division leaves over -/

variable {x y}

theorem exists_remainder_eq (x y : ℝ) : ∃ k : ℤ, remainder x y = x - y * k := ⟨cutOff (x / y), rfl⟩

theorem abs_sub_cutOff_lt (x : ℝ) : |x - cutOff x| < 1 := by
  unfold cutOff
  split
  · rw [abs_lt]
    constructor
    · linarith [Int.floor_le x]
    · linarith [Int.lt_floor_add_one x]
  · rw [abs_lt]
    constructor
    · linarith [Int.ceil_lt_add_one x]
    · linarith [Int.le_ceil x]

theorem abs_remainder_lt (hy : 0 < y) : |remainder x y| < y := by
  have hfactor : remainder x y = y * (x / y - cutOff (x / y)) := by
    change x - y * cutOff (x / y) = _
    field_simp
  rw [hfactor, abs_mul, abs_of_pos hy]
  exact mul_lt_of_lt_one_right hy (abs_sub_cutOff_lt _)

end Scalar

end PdfScene
