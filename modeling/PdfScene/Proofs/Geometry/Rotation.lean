import Mathlib
import PdfScene.Geometry.Frame
import PdfScene.Proofs.Number.Exact

/-!
# How far a page is turned

What the viewer asks for, less what the page stores, is brought into one turn, and from there onto a
right angle if it is next to one. Read over exact scalars the two remainders and the turn that is
added to a negative one are the residue of the difference (`Frame.totalRotation_eq`), so the result is
an angle of less than one turn, off by what the ranges of `Frame.snaps` allow
(`Frame.totalRotation_spec`).

The ranges are looked up after the difference has been brought into one turn. The first of them starts
below zero, where no such angle is: an angle that falls short of whole turns by the least bit is left
as it is, almost a whole turn.
-/

set_option autoImplicit false

namespace PdfScene

namespace Frame

/-! ## Ranges of angles -/

/-- An angle counts as the one that is stated for a range that it is in, or is in none. -/
theorem snap_cases {α : Type} [Scalar α] (t : α) :
    (∃ first last angle, (first, last, angle) ∈ snaps ∧ first ≤ t ∧ t ≤ last ∧ snap t = angle) ∨
      (∀ first last angle, (first, last, angle) ∈ snaps → ¬(first ≤ t ∧ t ≤ last)) ∧ snap t = t := by
  unfold snap
  split
  · next first last angle hfound =>
    have hwithin := List.find?_some hfound
    simp only [Bool.and_eq_true, decide_eq_true_eq] at hwithin
    exact .inl ⟨first, last, angle, List.mem_of_find?_eq_some hfound, hwithin.1, hwithin.2, rfl⟩
  · next hnone =>
    refine .inr ⟨fun first last angle hmem hwithin => ?_, rfl⟩
    apply List.find?_eq_none.mp hnone _ hmem
    simpa using hwithin

/-- There is a range for each right angle. They start farther below than they end above, but for the
first one. -/
theorem mem_snaps {first last angle : ℝ} : (first, last, angle) ∈ snaps ↔
    ∃ q : ℤ, (0 ≤ q ∧ q < 4) ∧ first = 90 * q - (if q = 0 then 1 / 1000 else 1 / 100) ∧
      last = 90 * q + 1 / 1000 ∧ angle = 90 * q := by
  have hquarters (P : ℤ → Prop) : (∃ q, (0 ≤ q ∧ q < 4) ∧ P q) ↔ P 0 ∨ P 1 ∨ P 2 ∨ P 3 := by
    constructor
    · rintro ⟨q, ⟨h0, h4⟩, hq⟩
      interval_cases q <;> simp [hq]
    · rintro (h | h | h | h)
      all_goals exact ⟨_, by decide, h⟩
  rw [hquarters]
  simp only [snaps, List.mem_cons, List.not_mem_nil, Prod.mk.injEq, Scalar.decimal_real,
    Scalar.zero_real, Scalar.ofNat_real, or_false]
  norm_num

/-- What an angle counts as is the angle itself or a right angle next to it. -/
theorem snap_near (t : ℝ) : snap t = t ∨
    (∃ q : ℤ, (0 ≤ q ∧ q < 4) ∧ snap t = 90 * q) ∧ t - 1 / 1000 ≤ snap t ∧ snap t ≤ t + 1 / 100 := by
  obtain ⟨first, last, angle, hmem, hfirst, hlast, heq⟩ | ⟨-, heq⟩ := snap_cases t
  · right
    obtain ⟨q, hq, rfl, rfl, rfl⟩ := mem_snaps.mp hmem
    rw [heq]
    refine ⟨⟨q, hq, rfl⟩, by linarith, ?_⟩
    split_ifs at hfirst <;> linarith
  · exact .inl heq

theorem snap_mem_turn {t : ℝ} (ht : t ∈ Set.Ico (0 : ℝ) 360) : snap t ∈ Set.Ico (0 : ℝ) 360 := by
  obtain heq | ⟨⟨q, ⟨h0, h4⟩, heq⟩, -, -⟩ := snap_near t
  · rw [heq]
    exact ht
  · have hpos : (0 : ℝ) ≤ q := by exact_mod_cast h0
    have hlt : (q : ℝ) < 4 := by exact_mod_cast h4
    rw [heq]
    constructor <;> linarith

/-- An angle by a right angle of the first turn counts as that right angle. -/
theorem snap_of_near {t : ℝ} {m : ℤ} (hm : 0 ≤ m ∧ m < 4) (h : |t - 90 * m| ≤ 1 / 1000) :
    snap t = 90 * m := by
  obtain ⟨hbelow, habove⟩ := abs_le.mp h
  obtain ⟨first, last, angle, hmem, hfirst, hlast, heq⟩ | ⟨hnone, -⟩ := snap_cases t
  · obtain ⟨q, -, rfl, rfl, rfl⟩ := mem_snaps.mp hmem
    -- the right angle of the range is less than one right angle away
    have hnear : |q - m| < 1 := by
      have hcast : |(q : ℝ) - m| < 1 := by
        rw [abs_lt]
        split_ifs at hfirst <;> constructor <;> linarith
      exact_mod_cast hcast
    rw [heq, sub_eq_zero.mp (Int.abs_lt_one_iff.mp hnear)]
  · refine absurd ⟨?_, ?_⟩ (hnone _ _ _ (mem_snaps.mpr ⟨m, hm, rfl, rfl, rfl⟩))
    · split_ifs <;> linarith
    · linarith

/-- An angle that falls short of a whole turn counts as none but itself. -/
theorem snap_of_lt {t : ℝ} (h : 271 < t) : snap t = t := by
  obtain ⟨first, last, angle, hmem, -, hlast, -⟩ | ⟨-, heq⟩ := snap_cases t
  · obtain ⟨q, ⟨-, h4⟩, -, rfl, -⟩ := mem_snaps.mp hmem
    have hq : (q : ℝ) ≤ 3 := by exact_mod_cast Int.le_of_lt_add_one h4
    linarith
  · exact heq

/-! ## One turn -/

theorem turn_pos : (0 : ℝ) < 360 := by norm_num

/-- **The angle is the residue of what is asked for less what is stored**, as the ranges count it. -/
theorem totalRotation_eq (stored user : ℝ) :
    totalRotation stored user = snap (toIcoMod turn_pos 0 (user - stored)) := by
  obtain ⟨k, hk⟩ := Scalar.exists_remainder_eq (360 - stored) 360
  obtain ⟨l, hl⟩ := Scalar.exists_remainder_eq (Scalar.remainder (360 - stored) 360 + user) 360
  have hsmall := abs_lt.mp
    (Scalar.abs_remainder_lt (x := Scalar.remainder (360 - stored) 360 + user) turn_pos)
  unfold totalRotation
  simp only [Scalar.zero_real, Scalar.ofNat_real]
  congr 1
  symm
  rw [toIcoMod_eq_iff, zero_add, Set.mem_Ico]
  split
  · next hneg =>
    refine ⟨⟨by linarith, by linarith⟩, k + l - 2, ?_⟩
    rw [hl, hk]
    push_cast [zsmul_eq_mul]
    ring
  · next hnonneg =>
    refine ⟨⟨not_lt.mp hnonneg, hsmall.2⟩, k + l - 1, ?_⟩
    rw [hl, hk]
    push_cast [zsmul_eq_mul]
    ring

/-- The residue of an angle next to a right angle is next to a right angle of the first turn, unless
it falls short of whole turns. -/
theorem toIcoMod_of_near {d : ℝ} {n : ℤ} (h : |d - 90 * n| ≤ 1 / 1000)
    (hshort : ¬(4 ∣ n ∧ d < 90 * n)) : toIcoMod turn_pos 0 d = d - 360 * (n / 4 : ℤ) := by
  obtain ⟨hbelow, habove⟩ := abs_le.mp h
  have hn : (n : ℝ) = 4 * (n / 4 : ℤ) + (n % 4 : ℤ) := by
    exact_mod_cast (Int.mul_ediv_add_emod n 4).symm
  have hlt : ((n % 4 : ℤ) : ℝ) ≤ 3 := by
    exact_mod_cast Int.le_of_lt_add_one (Int.emod_lt_of_pos n (by decide))
  rw [toIcoMod_eq_iff, zero_add, Set.mem_Ico]
  refine ⟨⟨?_, by linarith⟩, n / 4, by rw [zsmul_eq_mul]; ring⟩
  rcases (Int.emod_nonneg n (by decide : (4 : ℤ) ≠ 0)).eq_or_lt with hzero | hpos
  · have hreached : 90 * (n : ℝ) ≤ d := by
      by_contra hlt
      exact hshort ⟨Int.dvd_of_emod_eq_zero hzero.symm, not_le.mp hlt⟩
    rw [← hzero, Int.cast_zero] at hn
    linarith
  · have hone : (1 : ℝ) ≤ (n % 4 : ℤ) := by exact_mod_cast hpos
    linarith

/-- The residue of an angle that falls short of whole turns. -/
theorem toIcoMod_of_short {d : ℝ} {n : ℤ} (h : |d - 90 * n| ≤ 1 / 1000) (hdvd : 4 ∣ n)
    (hshort : d < 90 * n) : toIcoMod turn_pos 0 d = d - 90 * n + 360 := by
  obtain ⟨q, rfl⟩ := hdvd
  obtain ⟨hbelow, -⟩ := abs_le.mp h
  rw [toIcoMod_eq_iff, zero_add, Set.mem_Ico]
  refine ⟨⟨by linarith, by linarith⟩, q - 1, ?_⟩
  push_cast [zsmul_eq_mul]
  ring

/-! ## The angle of a page -/

/-- **The angle by which a page is turned** is less than one turn and, but for the ranges, congruent to
what is asked for less what is stored. Where that is next to a right angle it is this right angle,
unless it falls short of whole turns. -/
theorem totalRotation_spec (stored user : ℝ) :
    0 ≤ totalRotation stored user ∧ totalRotation stored user < 360 ∧
    (∃ k : ℤ, totalRotation stored user = user - stored - 360 * k ∨
      (∃ q : ℤ, totalRotation stored user = 90 * q) ∧
        user - stored - 360 * k - 1 / 1000 ≤ totalRotation stored user ∧
        totalRotation stored user ≤ user - stored - 360 * k + 1 / 100) ∧
    ∀ n : ℤ, |user - stored - 90 * n| ≤ 1 / 1000 →
      (totalRotation stored user = 90 * (n % 4 : ℤ) ↔ ¬(4 ∣ n ∧ user - stored < 90 * n)) ∧
      (4 ∣ n → user - stored < 90 * n →
        totalRotation stored user = user - stored - 90 * n + 360) := by
  rw [totalRotation_eq]
  generalize user - stored = d
  have hmem : toIcoMod turn_pos 0 d ∈ Set.Ico (0 : ℝ) 360 := by
    simpa using toIcoMod_mem_Ico turn_pos 0 d
  obtain ⟨h0, h360⟩ := Set.mem_Ico.mp (snap_mem_turn hmem)
  refine ⟨h0, h360, ?_, fun n hnear => ?_⟩
  · obtain ⟨-, k, hk⟩ := (toIcoMod_eq_iff turn_pos).mp (rfl : toIcoMod turn_pos 0 d = _)
    have hturned : toIcoMod turn_pos 0 d = d - 360 * k := by
      rw [zsmul_eq_mul] at hk
      linarith
    refine ⟨k, ?_⟩
    rw [hturned]
    exact (snap_near _).imp_right fun ⟨⟨q, _, hq⟩, hnext⟩ => ⟨⟨q, hq⟩, hnext⟩
  · have hshort (hdvd : 4 ∣ n) (hlt : d < 90 * n) :
        snap (toIcoMod turn_pos 0 d) = d - 90 * n + 360 := by
      rw [toIcoMod_of_short hnear hdvd hlt]
      exact snap_of_lt (by linarith [(abs_le.mp hnear).1])
    refine ⟨⟨?_, fun hreached => ?_⟩, hshort⟩
    · rintro heq ⟨hdvd, hlt⟩
      rw [hshort hdvd hlt, Int.emod_eq_zero_of_dvd hdvd, Int.cast_zero] at heq
      linarith [(abs_le.mp hnear).1]
    · rw [toIcoMod_of_near hnear hreached]
      apply snap_of_near ⟨Int.emod_nonneg n (by decide), Int.emod_lt_of_pos n (by decide)⟩
      have hn : (n : ℝ) = 4 * (n / 4 : ℤ) + (n % 4 : ℤ) := by
        exact_mod_cast (Int.mul_ediv_add_emod n 4).symm
      have hoff : d - 360 * (n / 4 : ℤ) - 90 * (n % 4 : ℤ) = d - 90 * n := by
        rw [hn]
        ring
      rw [hoff]
      exact hnear

/-- Next to a right angle from below, and next to a whole turn from below. -/
theorem totalRotation_spec_below :
    totalRotation (0 : ℝ) (90 - 1 / 2000) = 90 ∧
      totalRotation (0 : ℝ) (-1 / 2000) = 360 - 1 / 2000 := by
  constructor
  · have hnear : |90 - 1 / 2000 - 0 - 90 * ((1 : ℤ) : ℝ)| ≤ 1 / 1000 := by norm_num [abs_le]
    have hreached := ((totalRotation_spec 0 (90 - 1 / 2000)).2.2.2 1 hnear).1.mpr (by norm_num)
    simpa using hreached
  · have hnear : |-1 / 2000 - 0 - 90 * ((0 : ℤ) : ℝ)| ≤ 1 / 1000 := by norm_num [abs_le]
    have hshort := ((totalRotation_spec 0 (-1 / 2000)).2.2.2 0 hnear).2 (by simp) (by norm_num)
    rw [hshort]
    norm_num

end Frame

end PdfScene
