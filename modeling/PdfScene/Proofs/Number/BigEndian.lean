import Mathlib
import PdfScene.Bytes

/-!
# Numbers of bytes

Bytes in big-endian order are the digits of a number to the base 256: so many bytes have so many numbers,
and bytes behind others are its last places.
-/

set_option autoImplicit false

namespace PdfScene.Bytes

theorem bigEndian_snoc (bs : Bytes) (b : UInt8) :
    bigEndian (bs ++ [b]) = bigEndian bs * 256 + b.toNat := by
  simp [bigEndian, List.foldl_append]

theorem bigEndian_lt (bs : Bytes) : bigEndian bs < 256 ^ bs.length := by
  induction bs using List.reverseRecOn with
  | nil => simp [bigEndian]
  | append_singleton bs b ih =>
    have hb := b.toNat_lt
    rw [bigEndian_snoc, List.length_append, List.length_singleton, Nat.pow_succ]
    omega

theorem bigEndian_append (front back : Bytes) :
    bigEndian (front ++ back) =
      bigEndian front * 256 ^ back.length + bigEndian back := by
  induction back using List.reverseRecOn with
  | nil => simp [bigEndian]
  | append_singleton back b ih =>
    rw [← List.append_assoc, bigEndian_snoc, ih, bigEndian_snoc, List.length_append,
      List.length_singleton, Nat.pow_succ, ← Nat.mul_assoc]
    omega

theorem bigEndian_zeros (j : Nat) : bigEndian (List.replicate j 0) = 0 := by
  induction j with
  | zero => rfl
  | succ j ih =>
    rw [List.replicate_succ', bigEndian_snoc, ih]
    rfl

/-- The number of some bytes in front of others is a quotient. -/
theorem bigEndian_div (front back : Bytes) :
    bigEndian (front ++ back) / 256 ^ back.length = bigEndian front := by
  rw [bigEndian_append, Nat.mul_comm, Nat.mul_add_div (Nat.pow_pos (by omega)),
    Nat.div_eq_of_lt (bigEndian_lt back), Nat.add_zero]

/-- As many bytes with the same number are the same bytes. -/
theorem eq_of_bigEndian_eq {as bs : Bytes} (hlength : as.length = bs.length)
    (h : bigEndian as = bigEndian bs) : as = bs := by
  induction as using List.reverseRecOn generalizing bs with
  | nil => exact (List.length_eq_zero_iff.mp hlength.symm).symm
  | append_singleton as a ih =>
    obtain rfl | ⟨bs, b, rfl⟩ := List.eq_nil_or_concat bs
    · simp at hlength
    rw [List.concat_eq_append] at hlength h ⊢
    rw [bigEndian_snoc, bigEndian_snoc] at h
    have ha := a.toNat_lt
    have hb := b.toNat_lt
    have hlast : a = b := UInt8.toNat_inj.mp (by omega)
    rw [ih (by simpa using hlength) (by omega), hlast]

end PdfScene.Bytes
