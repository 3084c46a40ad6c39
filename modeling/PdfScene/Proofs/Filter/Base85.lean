import Mathlib
import PdfScene.Filter.Ascii85
import PdfScene.Proofs.Number.BigEndian

/-!
# Writing bytes in base 85

Four bytes are a number below 2 ^ 32, which five digits in base 85 write; four zero bytes may be
written as `z`. At the end of the data there may be fewer than four bytes: they are filled up with
zeros, and of the five digits one more is written than there are bytes. `encode` is that, with a
parameter that says where `z` is used.

Decoding gives the bytes back wherever blanks stand in what is written (`decode_spaced`). What needs an
argument is the last group. Reading fills it up with the greatest digit, which makes another number than
the one that was written, but one that is less than a place above it (`near_value_fill`), and the bytes
that are kept are the places from that one on (`bytes?_of_near`).
-/

set_option autoImplicit false

namespace PdfScene.Ascii85

open Bytes (bigEndian_append bigEndian_zeros bigEndian_lt bigEndian_div eq_of_bigEndian_eq)

/-! ## Writing -/

/-- Five digits in base 85, greatest place first. -/
def digits (n : Nat) : List Nat :=
  [n / 85 ^ 4, n / 85 ^ 3 % 85, n / 85 ^ 2 % 85, n / 85 % 85, n % 85]

/-- The number of at most four bytes, filled up with zeros. -/
def number (group : Bytes) : Nat :=
  Bytes.bigEndian (group ++ List.replicate (4 - group.length) 0)

/-- The digits that are written for at most four bytes, one more than there are bytes. -/
def groupDigits (group : Bytes) : List Nat := (digits (number group)).take (group.length + 1)

def digitByte (d : Nat) : UInt8 := UInt8.ofNat (d + 0x21)

def encodeGroup (group : Bytes) : Bytes := (groupDigits group).map digitByte

/-- Bytes in base 85. Four zero bytes in front of `rest` are written as `z` if `short rest`. -/
def encode (short : Bytes → Bool) : Bytes → Bytes
  | [] => []
  | a :: b :: c :: d :: rest =>
    (if [a, b, c, d] = [0, 0, 0, 0] ∧ short rest then [0x7A] else encodeGroup [a, b, c, d]) ++
      encode short rest
  | last => encodeGroup last

/-- What may stand in front of the data. -/
def opening (marked : Bool) : Bytes := if marked then [0x3C, 0x7E] else []

/-- What ends the data: nothing, or a mark with whatever comes after it. -/
def ending : Option Bytes → Bytes
  | none => []
  | some after => 0x7E :: after

/-! ## Numbers of groups -/

theorem number_eq (group : Bytes) :
    number group = Bytes.bigEndian group * 256 ^ (4 - group.length) := by
  rw [number, bigEndian_append, bigEndian_zeros, List.length_replicate, Nat.add_zero]

/-- A number that is less than the last place of a group above it still has four bytes. -/
theorem near_lt {group : Bytes} (hlength : group.length ≤ 4) {n : Nat}
    (hhigh : n < number group + 256 ^ (4 - group.length)) : n < 0x100000000 :=
  calc n < number group + 256 ^ (4 - group.length) := hhigh
    _ = (Bytes.bigEndian group + 1) * 256 ^ (4 - group.length) := by rw [number_eq, Nat.succ_mul]
    _ ≤ 256 ^ group.length * 256 ^ (4 - group.length) := Nat.mul_le_mul_right _ (bigEndian_lt group)
    _ = 0x100000000 := by rw [← Nat.pow_add, Nat.add_sub_cancel' hlength]

/-- The four bytes of a number. -/
theorem bytes?_eq_some {n : Nat} (h : n < 0x100000000) :
    ∃ bytes, bytes? n = some bytes ∧ bytes.length = 4 ∧ Bytes.bigEndian bytes = n := by
  refine ⟨_, if_pos h, rfl, ?_⟩
  simp only [Bytes.bigEndian, List.foldl_cons, List.foldl_nil, UInt8.toNat_ofNat', Nat.zero_mul,
    Nat.zero_add]
  omega

/-- **Numbers that are near that of a group have its bytes in front.** -/
theorem bytes?_of_near {group : Bytes} (hlength : group.length ≤ 4) {n : Nat}
    (hlow : number group ≤ n) (hhigh : n < number group + 256 ^ (4 - group.length)) :
    ∃ bytes, bytes? n = some bytes ∧ bytes.length = 4 ∧ bytes.take group.length = group := by
  obtain ⟨bytes, hbytes, hfour, hvalue⟩ := bytes?_eq_some (near_lt hlength hhigh)
  refine ⟨bytes, hbytes, hfour, eq_of_bigEndian_eq (by rw [List.length_take]; omega) ?_⟩
  have hfront := bigEndian_div (bytes.take group.length) (bytes.drop group.length)
  rw [List.take_append_drop, hvalue, List.length_drop, hfour] at hfront
  rw [number_eq] at hlow hhigh
  rw [← hfront]
  exact Nat.div_eq_of_lt_le hlow (by rwa [Nat.succ_mul])

/-! ## Numbers of digits -/

theorem value_snoc (ds : List Nat) (d : Nat) : value (ds ++ [d]) = value ds * 85 + d := by
  simp [value, List.foldl_append]

/-- The first digits write the number without its last places. -/
theorem value_take_digits (n : Nat) {k : Nat} (h : k ≤ 4) :
    value ((digits n).take (k + 1)) = n / 85 ^ (4 - k) := by
  match k, h with
  | 0, _ => simp [value, digits]
  | 1, _ => simp [value, digits]; omega
  | 2, _ => simp [value, digits]; omega
  | 3, _ => simp [value, digits]; omega
  | 4, _ => simp [value, digits]; omega

/-- The greatest digits behind some others make the greatest number that those begin. -/
theorem value_append_greatest (ds : List Nat) (j : Nat) :
    value (ds ++ List.replicate j 84) + 1 = (value ds + 1) * 85 ^ j := by
  induction j with
  | zero => simp
  | succ j ih =>
    rw [List.replicate_succ', ← List.append_assoc, value_snoc, Nat.pow_succ, ← Nat.mul_assoc, ← ih]
    omega

/-- **Filling up with the greatest digit rounds up by less than a place.** -/
theorem near_value_fill {group : Bytes} (hlength : group.length ≤ 4) :
    number group ≤ value (groupDigits group ++ List.replicate (4 - group.length) 84) ∧
      value (groupDigits group ++ List.replicate (4 - group.length) 84) <
        number group + 256 ^ (4 - group.length) := by
  have hfill := value_append_greatest (groupDigits group) (4 - group.length)
  rw [groupDigits, value_take_digits _ hlength, ← groupDigits] at hfill
  have hsplit := Nat.div_add_mod' (number group) (85 ^ (4 - group.length))
  have hrest := Nat.mod_lt (number group) (Nat.pow_pos (n := 4 - group.length) (show 0 < 85 by omega))
  have hplace : 85 ^ (4 - group.length) ≤ 256 ^ (4 - group.length) := Nat.pow_le_pow_left (by omega) _
  rw [Nat.succ_mul] at hfill
  omega

theorem length_groupDigits {group : Bytes} (hlength : group.length ≤ 4) :
    (groupDigits group).length = group.length + 1 := by
  rw [groupDigits, List.length_take]
  exact Nat.min_eq_left (Nat.succ_le_succ hlength)

theorem length_encodeGroup {group : Bytes} (hlength : group.length ≤ 4) :
    (encodeGroup group).length = group.length + 1 := by
  rw [encodeGroup, List.length_map, length_groupDigits hlength]

theorem groupDigits_lt {group : Bytes} (hlength : group.length ≤ 4) :
    ∀ d ∈ groupDigits group, d < 85 := by
  have hnumber := near_lt hlength (Nat.lt_add_of_pos_right (Nat.pow_pos (by omega)))
  have hall : ∀ d ∈ digits (number group), d < 85 := by
    simp only [digits, List.forall_mem_cons, List.not_mem_nil, false_implies, implies_true, and_true]
    omega
  exact fun d hd => hall d (List.mem_of_mem_take hd)

/-! ## Reading digits -/

section Reading

variable {done : Bytes} {ds : List Nat} {d : Nat}

theorem toNat_digitByte (hd : d < 85) : (digitByte d).toNat = d + 0x21 :=
  UInt8.toNat_ofNat_of_lt' (show d + 0x21 < 256 by omega)

theorem digitByte_ne (hd : d < 85) {b : UInt8} (hb : 0x75 < b) : digitByte d ≠ b := by
  intro h
  rw [UInt8.lt_iff_toNat_lt, ← h, toNat_digitByte hd] at hb
  exact absurd (show 0x75 < d + 0x21 from hb) (by omega)

/-- What reading asks of a byte, if that is a digit. -/
theorem digitByte_read (hd : d < 85) :
    (digitByte d == 0x7E) = false ∧ (digitByte d == 0x7A) = false ∧
      (decide (0x21 ≤ digitByte d) && decide (digitByte d ≤ 0x75)) = true ∧
      (digitByte d - 0x21).toNat = d := by
  have hvalue := toNat_digitByte hd
  have hlow : 0x21 ≤ digitByte d := by
    rw [UInt8.le_iff_toNat_le, hvalue]
    exact Nat.le_add_left _ _
  have hhigh : digitByte d ≤ 0x75 := by
    rw [UInt8.le_iff_toNat_le, hvalue]
    exact show d + 0x21 ≤ 0x75 by omega
  refine ⟨beq_eq_false_iff_ne.mpr (digitByte_ne hd (by decide)),
    beq_eq_false_iff_ne.mpr (digitByte_ne hd (by decide)), ?_, ?_⟩
  · rw [decide_eq_true hlow, decide_eq_true hhigh, Bool.and_self]
  · rw [UInt8.toNat_sub_of_le _ _ hlow, hvalue]
    exact Nat.add_sub_cancel _ _

/-- A digit is kept if it does not complete a group. -/
theorem body_digit (hd : d < 85) (hfew : (ds ++ [d]).length < 5) (rest : Bytes) :
    body done ds (digitByte d :: rest) = body done (ds ++ [d]) rest := by
  obtain ⟨hend, hzeros, hdigit, hvalue⟩ := digitByte_read hd
  rw [body, hend, hzeros, hdigit, hvalue]
  exact if_pos hfew

/-- With the last digit of a group its bytes are done. -/
theorem body_lastDigit (hd : d < 85) (hfull : ¬ (ds ++ [d]).length < 5) {bytes : Bytes}
    (hbytes : bytes? (value (ds ++ [d])) = some bytes) (rest : Bytes) :
    body done ds (digitByte d :: rest) = body (bytes.reverse ++ done) [] rest := by
  obtain ⟨hend, hzeros, hdigit, hvalue⟩ := digitByte_read hd
  rw [body, hend, hzeros, hdigit, hvalue]
  exact (if_neg hfull).trans (by rw [hbytes])

/-- Digits that do not complete a group are kept. -/
theorem body_digits (more : List Nat) (hmore : ∀ d ∈ more, d < 85)
    (hfew : (ds ++ more).length < 5) (rest : Bytes) :
    body done ds (more.map digitByte ++ rest) = body done (ds ++ more) rest := by
  induction more generalizing ds with
  | nil => simp
  | cons d more ih =>
    rw [List.forall_mem_cons] at hmore
    have hnext : (ds ++ [d]).length < 5 := by
      simp only [List.length_append, List.length_cons, List.length_nil] at hfew ⊢
      omega
    rw [List.map_cons, List.cons_append, body_digit hmore.1 hnext, ih hmore.2 (by simpa using hfew),
      List.append_assoc, List.singleton_append]

/-- **Five digits are read as four bytes.** -/
theorem body_encodeGroup {group : Bytes} (hlength : group.length = 4) (done rest : Bytes) :
    body done [] (encodeGroup group ++ rest) = body (group.reverse ++ done) [] rest := by
  obtain ⟨hlow, hhigh⟩ := near_value_fill hlength.le
  obtain ⟨bytes, hbytes, hfour, htake⟩ := bytes?_of_near hlength.le hlow hhigh
  rw [hlength, Nat.sub_self, List.replicate_zero, List.append_nil] at hbytes
  rw [List.take_of_length_le (by omega)] at htake
  have hlt := groupDigits_lt hlength.le
  have hfive := length_groupDigits hlength.le
  -- the fifth digit completes the group
  obtain hnil | ⟨four, last, hdigits⟩ := List.eq_nil_or_concat (groupDigits group)
  · rw [hnil] at hfive
    cases hfive
  rw [List.concat_eq_append] at hdigits
  rw [hdigits, List.length_append, List.length_singleton] at hfive
  rw [hdigits, List.forall_mem_append, List.forall_mem_singleton] at hlt
  rw [hdigits] at hbytes
  have hfull : ¬ (four ++ [last]).length < 5 := by
    rw [List.length_append, List.length_singleton]
    omega
  rw [encodeGroup, hdigits, List.map_append, List.append_assoc,
    body_digits four hlt.1 (by rw [List.nil_append]; omega), List.map_singleton,
    List.singleton_append, List.nil_append, body_lastDigit hlt.2 hfull hbytes, htake]

/-- **What is left of digits at the end is a group of fewer than four bytes.** -/
theorem lastGroup_groupDigits {group : Bytes} (hlength : group.length < 4) :
    lastGroup (groupDigits group) = .ok group := by
  obtain ⟨hlow, hhigh⟩ := near_value_fill hlength.le
  obtain ⟨bytes, hbytes, -, htake⟩ := bytes?_of_near hlength.le hlow hhigh
  have hfill : 5 - (group.length + 1) = 4 - group.length := by omega
  rw [lastGroup, length_groupDigits hlength.le, hfill, hbytes]
  split
  · obtain rfl : group = [] := List.length_eq_zero_iff.mp (by omega)
    rfl
  · exact congrArg Except.ok htake

theorem body_ending (done : Bytes) (ds : List Nat) (after : Option Bytes) :
    body done ds (ending after) = (lastGroup ds).map fun bytes => done.reverse ++ bytes := by
  cases after with
  | none => rfl
  | some after => rw [ending, body]; rfl

theorem body_encodeGroup_ending {group : Bytes} (hlength : group.length < 4) (done : Bytes)
    (after : Option Bytes) :
    body done [] (encodeGroup group ++ ending after) = .ok (done.reverse ++ group) := by
  have hfew := length_groupDigits hlength.le
  rw [encodeGroup, body_digits _ (groupDigits_lt hlength.le) (by rw [List.nil_append]; omega),
    List.nil_append, body_ending, lastGroup_groupDigits hlength]
  rfl

theorem body_short (done rest : Bytes) :
    body done [] (0x7A :: rest) = body (0 :: 0 :: 0 :: 0 :: done) [] rest := by
  rw [body]
  rfl

/-- Bytes that do not begin with a group are too few for one. -/
theorem length_lt_four {bs : Bytes}
    (h : ∀ (a b c d : UInt8) (rest : Bytes), bs = a :: b :: c :: d :: rest → False) :
    bs.length < 4 := by
  rcases bs with _ | ⟨a, _ | ⟨b, _ | ⟨c, _ | ⟨d, rest⟩⟩⟩⟩
  case cons.cons.cons.cons => exact absurd rfl (h a b c d rest)
  all_goals simp

/-- **What is written is read back**, if there are no blanks in it. -/
theorem body_encode (short : Bytes → Bool) (done bs : Bytes) (after : Option Bytes) :
    body done [] (encode short bs ++ ending after) = .ok (done.reverse ++ bs) := by
  fun_induction encode short bs generalizing done with
  | case1 =>
    rw [List.nil_append, body_ending]
    rfl
  | case2 a b c d rest ih =>
    rw [List.append_assoc]
    split
    · rename_i hzeros
      rw [List.singleton_append, body_short, ih]
      cases hzeros.1
      simp
    · rw [body_encodeGroup rfl, ih, List.reverse_append, List.reverse_reverse, List.append_assoc]
      rfl
  | case3 last hnil hcons =>
    exact body_encodeGroup_ending (length_lt_four hcons) done after

/-! ## Blanks and marks -/

theorem body_blank {b : UInt8} (hb : Byte.isBlank b) (rest : Bytes) :
    body done ds (b :: rest) = body done ds rest := by
  have hmark : b ≠ 0x7E := fun h => by rw [h] at hb; cases hb
  have hz : b ≠ 0x7A := fun h => by rw [h] at hb; cases hb
  have hlow : ¬ 0x21 ≤ b := by
    simp only [Byte.isBlank, Bool.or_eq_true, beq_iff_eq] at hb
    rcases hb with ((((rfl | rfl) | rfl) | rfl) | rfl) | rfl <;> decide
  rw [body]
  simp only [beq_iff_eq, hmark, hlow, hb, beq_eq_false_iff_ne.mpr hz, Bool.false_and,
    Bool.false_eq_true, decide_false, if_true, if_false]

/-- **Blanks do not count.** -/
theorem body_filter (text rest : Bytes) :
    body done ds (text.filter (fun b => !Byte.isBlank b) ++ rest) = body done ds (text ++ rest) := by
  induction text generalizing done ds with
  | nil => rfl
  | cons b text ih =>
    cases hb : Byte.isBlank b with
    | true =>
      rw [List.filter_cons_of_neg (by simp [hb]), List.cons_append, body_blank hb]
      exact ih
    | false =>
      rw [List.filter_cons_of_pos (by simp [hb]), List.cons_append, List.cons_append, body, body]
      simp only [ih]

end Reading

theorem mark_not_mem_encodeGroup {group : Bytes} (hlength : group.length ≤ 4) :
    0x7E ∉ encodeGroup group := by
  intro hmem
  obtain ⟨d, hd, heq⟩ := List.mem_map.mp hmem
  exact digitByte_ne (groupDigits_lt hlength d hd) (by decide) heq

/-- No mark is written among the digits. -/
theorem mark_not_mem_encode (short : Bytes → Bool) (bs : Bytes) : 0x7E ∉ encode short bs := by
  fun_induction encode short bs with
  | case1 => exact List.not_mem_nil
  | case2 a b c d rest ih =>
    rw [List.mem_append, not_or]
    refine ⟨?_, ih⟩
    split
    · decide
    · exact mark_not_mem_encodeGroup (Nat.le_refl 4)
  | case3 last hnil hcons => exact mark_not_mem_encodeGroup (length_lt_four hcons).le

/-- No digit is written alone. -/
theorem encode_ne_singleton (short : Bytes → Bool) (bs : Bytes) {b : UInt8} (hb : b ≠ 0x7A) :
    encode short bs ≠ [b] := by
  intro h
  unfold encode at h
  split at h
  · cases h
  · split at h
    · exact hb (List.cons.inj h).1.symm
    · have hone := congrArg List.length h
      rw [List.length_append, length_encodeGroup (show [_, _, _, _].length ≤ 4 from Nat.le_refl 4)]
        at hone
      simp only [List.length_cons] at hone
      omega
  · rename_i hnil hcons
    have hone := congrArg List.length h
    rw [length_encodeGroup (length_lt_four hcons).le] at hone
    exact hnil (List.length_eq_zero_iff.mp (Nat.succ.inj hone))

/-- What is written does not begin like an opening mark. -/
theorem skipMark_spaced {short : Bytes → Bool} {bs text : Bytes}
    (h : text.filter (fun b => !Byte.isBlank b) = encode short bs) (after : Option Bytes) :
    skipMark (text ++ ending after) = text ++ ending after := by
  have hmark : ¬ ∃ rest, text ++ ending after = 0x3C :: 0x7E :: rest := by
    rintro ⟨rest, heq⟩
    rcases text with _ | ⟨a, _ | ⟨b, text⟩⟩
    · cases after <;> simp [ending] at heq
    · obtain ⟨rfl, -⟩ := List.cons.inj heq
      exact encode_ne_singleton short bs (by decide) h.symm
    · simp only [List.cons_append, List.cons.injEq] at heq
      obtain ⟨rfl, rfl, -⟩ := heq
      refine mark_not_mem_encode short bs ?_
      rw [← h]
      exact List.mem_filter.mpr ⟨by simp, rfl⟩
  unfold skipMark
  split
  · rename_i a b rest heq
    split
    · rename_i hab
      simp only [Bool.and_eq_true, beq_iff_eq] at hab
      exact absurd ⟨rest, by rw [heq, hab.1, hab.2]⟩ hmark
    · rw [heq]
  · rfl

/-- **Decoding gives back the bytes that were written in base 85**, wherever `z` is used for zeros,
wherever blanks are put in, with or without the opening mark in front, and with or without the mark that
ends the data, whatever comes after it. -/
theorem decode_spaced (short : Bytes → Bool) (bs text : Bytes) (marked : Bool) (after : Option Bytes)
    (h : text.filter (fun b => !Byte.isBlank b) = encode short bs) :
    decode (opening marked ++ text ++ ending after) = .ok bs := by
  have hskip : skipMark (opening marked ++ text ++ ending after) = text ++ ending after := by
    cases marked with
    | true => rfl
    | false => exact skipMark_spaced h after
  rw [decode, hskip, ← body_filter, h, body_encode]
  rfl

/-- Five bytes, the first four of them zero, with blanks inside the last group. -/
theorem decode_spaced_short :
    ([0x20, 0x7A, 0x35, 0x0A, 0x6C].filter fun b => !Byte.isBlank b) =
        encode (fun _ => true) [0, 0, 0, 0, 65] ∧
      decode (opening true ++ [0x20, 0x7A, 0x35, 0x0A, 0x6C] ++ ending (some [0x3E])) =
        .ok [0, 0, 0, 0, 65] := by
  have h : ([0x20, 0x7A, 0x35, 0x0A, 0x6C].filter fun b => !Byte.isBlank b) =
      encode (fun _ => true) [0, 0, 0, 0, 65] := by decide
  exact ⟨h, decode_spaced _ _ _ true _ h⟩

example : encode (fun _ => false) (Bytes.ofAscii "Hello World") = Bytes.ofAscii "87cURD]i,\"Ebo7" := by
  decide +kernel

end PdfScene.Ascii85
