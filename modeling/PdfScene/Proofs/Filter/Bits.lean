import Mathlib
import PdfScene.Bytes

/-!
# Bits of bytes

Codes of varying width run across byte boundaries, most significant bit first. `Bits.ofNat` writes one
code, `Bits.ofBytes` is the row of bits that a piece of data is, and `Bits.pack` cuts a row of bits into
bytes. What a reader of codes needs to know is `value_split`: the value of some bits with others behind
them is a quotient, and the value of the others is a remainder.
-/

set_option autoImplicit false

namespace PdfScene.Bits

/-- The `width` lowest bits of a number, most significant first. -/
def ofNat : Nat → Nat → List Bool
  | 0, _ => []
  | width + 1, n => ofNat width (n / 2) ++ [n % 2 == 1]

/-- The number that some bits write. -/
def value (bits : List Bool) : Nat := bits.foldl (fun n b => n * 2 + b.toNat) 0

def ofBytes (bs : Bytes) : List Bool := bs.flatMap fun b => ofNat 8 b.toNat

/-- At most eight bits as a byte, filled up with zeros. -/
def toByte (bits : List Bool) : UInt8 :=
  UInt8.ofNat (value (bits ++ List.replicate (8 - bits.length) false))

/-- Bits as bytes, the last one filled up with zeros. -/
def pack (bits : List Bool) : Bytes :=
  match bits with
  | [] => []
  | b :: rest => toByte ((b :: rest).take 8) :: pack ((b :: rest).drop 8)
termination_by bits.length
decreasing_by simp only [List.length_drop, List.length_cons]; omega

/-! ## Numbers and bits -/

@[simp] theorem length_ofNat (width n : Nat) : (ofNat width n).length = width := by
  induction width generalizing n with
  | zero => rfl
  | succ width ih => simp [ofNat, ih]

theorem value_snoc (bits : List Bool) (b : Bool) :
    value (bits ++ [b]) = value bits * 2 + b.toNat := by
  simp [value, List.foldl_append]

theorem value_lt (bits : List Bool) : value bits < 2 ^ bits.length := by
  induction bits using List.reverseRecOn with
  | nil => simp [value]
  | append_singleton bits b ih =>
    have hb := Bool.toNat_lt b
    rw [value_snoc, List.length_append, List.length_singleton, Nat.pow_succ]
    omega

theorem value_append (front back : List Bool) :
    value (front ++ back) = value front * 2 ^ back.length + value back := by
  induction back using List.reverseRecOn with
  | nil => simp [value]
  | append_singleton back b ih =>
    rw [← List.append_assoc, value_snoc, ih, value_snoc, List.length_append, List.length_singleton,
      Nat.pow_succ, ← Nat.mul_assoc]
    omega

theorem value_ofNat {width n : Nat} (h : n < 2 ^ width) : value (ofNat width n) = n := by
  induction width generalizing n with
  | zero => simp [ofNat, value]; omega
  | succ width ih =>
    have hhalf : n / 2 < 2 ^ width := by rw [Nat.pow_succ] at h; omega
    have hlast : (n % 2 == 1).toNat = n % 2 := by
      rcases Nat.mod_two_eq_zero_or_one n with h | h <;> simp [h]
    rw [ofNat, value_snoc, ih hhalf, hlast]
    omega

theorem ofNat_value (bits : List Bool) : ofNat bits.length (value bits) = bits := by
  induction bits using List.reverseRecOn with
  | nil => rfl
  | append_singleton bits b ih =>
    have hhalf : (value bits * 2 + b.toNat) / 2 = value bits := by
      have hb := Bool.toNat_lt b
      omega
    have hlast : ((value bits * 2 + b.toNat) % 2 == 1) = b := by
      cases b <;> simp [Bool.toNat, Nat.add_mod]
    rw [List.length_append, List.length_singleton, ofNat, value_snoc, hhalf, hlast, ih]

/-- **The value of a row of bits splits where the row does.** -/
theorem value_split (front back : List Bool) :
    value (front ++ back) / 2 ^ back.length = value front ∧
      value (front ++ back) % 2 ^ back.length = value back := by
  have hback := value_lt back
  rw [value_append, Nat.mul_comm]
  constructor
  · rw [Nat.mul_add_div (Nat.two_pow_pos _), Nat.div_eq_of_lt hback, Nat.add_zero]
  · rw [Nat.mul_add_mod, Nat.mod_eq_of_lt hback]

/-! ## Bytes -/

@[simp] theorem ofBytes_cons (b : UInt8) (bs : Bytes) :
    ofBytes (b :: bs) = ofNat 8 b.toNat ++ ofBytes bs := rfl

theorem ofBytes_append (front back : Bytes) :
    ofBytes (front ++ back) = ofBytes front ++ ofBytes back := List.flatMap_append

@[simp] theorem length_ofBytes (bs : Bytes) : (ofBytes bs).length = 8 * bs.length := by
  induction bs with
  | nil => rfl
  | cons b bs ih => rw [ofBytes_cons, List.length_append, length_ofNat, ih, List.length_cons]; omega

theorem drop_ofBytes (bs : Bytes) (i : Nat) : (ofBytes bs).drop (8 * i) = ofBytes (bs.drop i) := by
  induction i generalizing bs with
  | zero => rfl
  | succ i ih =>
    cases bs with
    | nil => rw [List.drop_nil]; exact List.drop_nil
    | cons b bs =>
      rw [ofBytes_cons, Nat.mul_succ, Nat.add_comm, ← List.drop_drop,
        List.drop_left' (length_ofNat 8 b.toNat), ih, List.drop_succ_cons]

/-- Bits that start with a byte are the bits of that byte and those of the ones after it. -/
theorem eq_byte_append {bs : Bytes} {before bits : List Bool} {i : Nat}
    (h : ofBytes bs = before ++ bits) (hbefore : before.length = 8 * i) (hbits : bits ≠ []) :
    bits = ofNat 8 (bs.getD i 0).toNat ++ ofBytes (bs.drop (i + 1)) := by
  have hdrop : bits = ofBytes (bs.drop i) := by
    rw [← drop_ofBytes, h, List.drop_left' hbefore]
  have hi : i < bs.length := by
    by_contra hge
    rw [List.drop_of_length_le (by omega)] at hdrop
    exact hbits hdrop
  rw [hdrop, List.drop_eq_getElem_cons hi, ofBytes_cons, List.getD_eq_getElem bs 0 hi]

/-- A byte behind some bits. -/
theorem value_append_byte (bits : List Bool) (b : UInt8) :
    value (bits ++ ofNat 8 b.toNat) = value bits * 256 + b.toNat := by
  have hpow : 2 ^ 8 = 256 := by decide
  rw [value_append, length_ofNat, value_ofNat (UInt8.toNat_lt b), hpow]

/-- **Bits within a byte**: the number that they write, as a quotient of the byte and its remainder. -/
theorem value_within {bs : Bytes} {before bits after : List Bool} {i : Nat}
    (h : ofBytes bs = before ++ (bits ++ after)) (hne : bits ≠ []) (hstart : 8 * i ≤ before.length)
    (hend : before.length + bits.length ≤ 8 * (i + 1)) :
    (bs.getD i 0).toNat / 2 ^ (8 * (i + 1) - before.length - bits.length) % 2 ^ bits.length =
      value bits := by
  -- `front` stands before the bits in their byte
  obtain ⟨whole, front, rfl, hwhole, hfront⟩ : ∃ whole front, before = whole ++ front ∧
      whole.length = 8 * i ∧ front.length = before.length - 8 * i :=
    ⟨_, _, (List.take_append_drop (8 * i) before).symm, List.length_take_of_le hstart,
      List.length_drop⟩
  rw [List.append_assoc] at h
  have hbyte := eq_byte_append h hwhole (by simp [hne])
  have hlength := congrArg List.length hbyte
  have hfirst := congrArg (List.take 8) hbyte
  simp only [List.length_append, length_ofNat] at hlength hstart hend hfront
  rw [List.take_left' (length_ofNat 8 _), List.take_append, List.take_append,
    List.take_of_length_le (by omega), List.take_of_length_le (by omega), ← List.append_assoc] at hfirst
  have hback : (after.take (8 - front.length - bits.length)).length =
      8 * (i + 1) - (whole ++ front).length - bits.length := by
    rw [List.length_take, List.length_append]
    omega
  have hvalue : (bs.getD i 0).toNat =
      value (front ++ bits ++ after.take (8 - front.length - bits.length)) := by
    rw [hfirst, value_ofNat (UInt8.toNat_lt _)]
  rw [hvalue, ← hback, (value_split _ _).1, (value_split _ _).2]

/-- **Bits that are two bytes**: the number that they write is that of the bytes. -/
theorem value_two_bytes {bs : Bytes} {before bits after : List Bool} {i : Nat}
    (h : ofBytes bs = before ++ (bits ++ after)) (hbefore : before.length = 8 * i)
    (hbits : bits.length = 16) :
    (bs.getD i 0).toNat * 256 + (bs.getD (i + 1) 0).toNat = value bits := by
  have hlt : ∀ i, (bs.getD i 0).toNat < 2 ^ 8 := fun i => UInt8.toNat_lt _
  obtain ⟨high, low, rfl, hhigh⟩ : ∃ high low, bits = high ++ low ∧ high.length = 8 :=
    ⟨_, _, (List.take_append_drop 8 bits).symm, List.length_take_of_le (by omega)⟩
  have hlow : low.length = 8 := by rw [List.length_append] at hbits; omega
  have hne : ∀ {byte : List Bool}, byte.length = 8 → byte ≠ [] := by
    rintro byte hlength rfl
    cases hlength
  rw [List.append_assoc] at h
  have hfirst := value_within h (hne hhigh) (i := i) (by omega) (by omega)
  rw [← List.append_assoc] at h
  have hsecond := value_within h (hne hlow) (i := i + 1) (by rw [List.length_append]; omega)
    (by rw [List.length_append]; omega)
  rw [hbefore, hhigh, show 8 * (i + 1) - 8 * i - 8 = 0 by omega, Nat.pow_zero, Nat.div_one,
    Nat.mod_eq_of_lt (hlt i)] at hfirst
  rw [List.length_append, hbefore, hhigh, hlow,
    show 8 * (i + 1 + 1) - (8 * i + 8) - 8 = 0 by omega, Nat.pow_zero, Nat.div_one,
    Nat.mod_eq_of_lt (hlt (i + 1))] at hsecond
  rw [value_append, hlow, hfirst, hsecond]
  rfl

theorem ofNat_toByte {bits : List Bool} (h : bits.length ≤ 8) :
    ofNat 8 (toByte bits).toNat = bits ++ List.replicate (8 - bits.length) false := by
  have hlength : (bits ++ List.replicate (8 - bits.length) false).length = 8 := by
    rw [List.length_append, List.length_replicate]
    omega
  have hlt := value_lt (bits ++ List.replicate (8 - bits.length) false)
  have hbits := ofNat_value (bits ++ List.replicate (8 - bits.length) false)
  rw [hlength] at hlt hbits
  rw [toByte, UInt8.toNat_ofNat_of_lt' hlt, hbits]

/-- **Packed bits are in the bytes**, with zeros behind them at most. -/
theorem ofBytes_pack (bits : List Bool) :
    ∃ room, ofBytes (pack bits) = bits ++ List.replicate room false := by
  fun_induction pack bits with
  | case1 => exact ⟨0, rfl⟩
  | case2 b rest ih =>
    obtain ⟨room, ih⟩ := ih
    rw [ofBytes_cons, ofNat_toByte (List.length_take_le 8 _), ih]
    by_cases hfull : 8 ≤ (b :: rest).length
    · refine ⟨room, ?_⟩
      rw [List.length_take_of_le hfull, Nat.sub_self, List.replicate_zero, List.append_nil,
        ← List.append_assoc, List.take_append_drop]
    · have hshort : (b :: rest).length ≤ 8 := by omega
      refine ⟨8 - (b :: rest).length + room, ?_⟩
      rw [List.take_of_length_le hshort, List.drop_of_length_le hshort, List.nil_append,
        List.append_assoc, List.replicate_append_replicate]

theorem length_pack (bits : List Bool) : (pack bits).length = (bits.length + 7) / 8 := by
  fun_induction pack bits with
  | case1 => rfl
  | case2 b rest ih =>
    rw [List.length_cons, ih, List.length_drop, List.length_cons]
    omega

end PdfScene.Bits
