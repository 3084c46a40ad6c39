import Mathlib
import PdfScene.Text.Utf8

/-!
# UTF-8 and its repairs

`decode` undoes `encode` (`decode_encoded`), so texts are told apart by their bytes. It reads every other
byte string as some text too, and what it repairs cannot be seen in the text but for the replacement
character: without one the bytes are those of the text (`encode_decode`), and with one they are not the
only bytes that are read so (`decode_unique_iff`).

Both directions go through one account of a character that is under way. A first byte leaves a number
of tails and a bound on the next one (`Opens`), and a number is awaited there if the bits read are its
upper ones and its next tail is within the bound (`Partial.Awaits`). The numbers that are awaited behind
a first byte are those of the characters that start with it.
-/

set_option autoImplicit false

namespace PdfScene.Utf8

variable {b : UInt8} {bs : Bytes} {p : Partial} {c : Char} {n v : Nat}

/-! ## How characters are written -/

/-- The bytes of a text. -/
def encode (s : String) : Bytes := s.toList.flatMap String.utf8EncodeChar

/-- The bytes of some text. -/
def WellFormed (bs : Bytes) : Prop := ∃ s, bs = encode s

/-- The byte for the last six bits that a number has above its lower `n` groups of six. -/
def tail (v n : Nat) : UInt8 := UInt8.ofNat (v / 64 ^ n % 64 + 0x80)

/-- The bytes for the lower `n` groups of six bits. -/
def tails (v : Nat) : Nat → Bytes
  | 0 => []
  | n + 1 => tail v n :: tails v n

/-- The first byte of a number beyond ASCII, and how many tails follow it. -/
def lead (v : Nat) : Nat × Nat :=
  if v < 0x800 then (v / 64 + 0xC0, 1)
  else if v < 0x10000 then (v / 64 ^ 2 + 0xE0, 2)
  else (v / 64 ^ 3 + 0xF0, 3)

theorem toNat_tail (v n : Nat) : (tail v n).toNat = v / 64 ^ n % 64 + 0x80 := by
  rw [tail, UInt8.toNat_ofNat']
  omega

theorem utf8EncodeChar_ascii (h : c.toNat < 0x80) :
    String.utf8EncodeChar c = [UInt8.ofNat c.toNat] := by
  have hval : c.val.toNat = c.toNat := rfl
  simp only [String.utf8EncodeChar, hval]
  rw [if_pos (by omega)]

theorem utf8EncodeChar_wide (h : 0x80 ≤ c.toNat) :
    String.utf8EncodeChar c = UInt8.ofNat (lead c.toNat).1 :: tails c.toNat (lead c.toNat).2 := by
  have hvalid : c.toNat.isValidChar := c.valid
  have hval : c.val.toNat = c.toNat := rfl
  unfold Nat.isValidChar at hvalid
  simp only [String.utf8EncodeChar, lead, hval]
  rw [if_neg (by omega)]
  by_cases h2 : c.toNat < 0x800
  · rw [if_pos (by omega), if_pos h2, Nat.mod_eq_of_lt (by omega)]
    simp [tails, tail]
  by_cases h3 : c.toNat < 0x10000
  · rw [if_neg (by omega), if_pos (by omega), if_neg h2, if_pos h3, Nat.mod_eq_of_lt (by omega)]
    simp [tails, tail]
  · rw [if_neg (by omega), if_neg (by omega), if_neg h2, if_neg h3, Nat.mod_eq_of_lt (by omega)]
    simp [tails, tail]

/-! ## First bytes -/

/-- The characters that a first byte opens, by its number. The least and the greatest of a row have
bounds of their own, which rule out long forms and numbers past the last character, and `0xED` has one
that rules out surrogates. -/
inductive Opens (n : Nat) : Partial → Prop where
  | two (hlow : 0xC2 ≤ n) (hhigh : n ≤ 0xDF) : Opens n ⟨1, 0x80, 0xBF, n % 32⟩
  | threeLeast (h : n = 0xE0) : Opens n ⟨2, 0xA0, 0xBF, 0⟩
  | threeSurrogate (h : n = 0xED) : Opens n ⟨2, 0x80, 0x9F, 13⟩
  | three (hlow : 0xE1 ≤ n) (hhigh : n ≤ 0xEF) (hother : n ≠ 0xED) :
      Opens n ⟨2, 0x80, 0xBF, n % 16⟩
  | fourLeast (h : n = 0xF0) : Opens n ⟨3, 0x90, 0xBF, 0⟩
  | four (hlow : 0xF1 ≤ n) (hhigh : n ≤ 0xF3) : Opens n ⟨3, 0x80, 0xBF, n % 8⟩
  | fourGreatest (h : n = 0xF4) : Opens n ⟨3, 0x80, 0x8F, 4⟩

theorem start_eq (b : UInt8) : start b =
    if b.toNat < 0x80 then .char (Char.ofNat b.toNat)
    else if 0xC2 ≤ b.toNat ∧ b.toNat ≤ 0xDF then .more ⟨1, 0x80, 0xBF, b.toNat % 32⟩
    else if b.toNat = 0xE0 then .more ⟨2, 0xA0, 0xBF, 0⟩
    else if b.toNat = 0xED then .more ⟨2, 0x80, 0x9F, 13⟩
    else if 0xE1 ≤ b.toNat ∧ b.toNat ≤ 0xEF then .more ⟨2, 0x80, 0xBF, b.toNat % 16⟩
    else if b.toNat = 0xF0 then .more ⟨3, 0x90, 0xBF, 0⟩
    else if 0xF1 ≤ b.toNat ∧ b.toNat ≤ 0xF3 then .more ⟨3, 0x80, 0xBF, b.toNat % 8⟩
    else if b.toNat = 0xF4 then .more ⟨3, 0x80, 0x8F, 4⟩
    else .char replacement := by
  simp only [start, UInt8.lt_iff_toNat_lt, UInt8.le_iff_toNat_le, beq_iff_eq, ← UInt8.toNat_inj,
    Bool.and_eq_true, decide_eq_true_eq]
  rfl

theorem start_eq_more_iff : start b = .more p ↔ Opens b.toNat p := by
  rw [start_eq]
  constructor
  · intro h
    repeat' split at h
    all_goals
      cases h
      try constructor <;> omega
  · intro h
    cases h with
    | two hlow hhigh => rw [if_neg (by omega), if_pos ⟨hlow, hhigh⟩]
    | threeLeast h => simp [h]
    | threeSurrogate h => simp [h]
    | three hlow hhigh hother =>
      rw [if_neg (by omega), if_neg (by omega), if_neg (by omega), if_neg hother,
        if_pos ⟨hlow, hhigh⟩]
    | fourLeast h => simp [h]
    | four hlow hhigh =>
      rw [if_neg (by omega), if_neg (by omega), if_neg (by omega), if_neg (by omega),
        if_neg (by omega), if_neg (by omega), if_pos ⟨hlow, hhigh⟩]
    | fourGreatest h => simp [h]

/-- A byte that opens no character is an ASCII one, or it is replaced. -/
theorem start_eq_char (h : start b = .char c) :
    c = replacement ∨ b.toNat < 0x80 ∧ c = Char.ofNat b.toNat := by
  rw [start_eq] at h
  repeat' split at h
  all_goals cases h
  · rename_i hascii
    exact .inr ⟨hascii, rfl⟩
  · exact .inl rfl

theorem start_ofNat (h : n < 0x80) : start (UInt8.ofNat n) = .char (Char.ofNat n) := by
  have hn : (UInt8.ofNat n).toNat = n := by
    rw [UInt8.toNat_ofNat']
    omega
  rw [start_eq, hn, if_pos h]

/-! ## Characters under way -/

/-- The number `v` agrees with the bits that have been read and with the bound on the next byte. -/
structure Partial.Awaits (p : Partial) (v : Nat) : Prop where
  bits : v / 64 ^ p.tails = p.bits
  low : p.low.toNat ≤ v / 64 ^ (p.tails - 1) % 64 + 0x80
  high : v / 64 ^ (p.tails - 1) % 64 + 0x80 ≤ p.high.toNat

/-- The next byte is a tail. -/
structure Partial.Proper (p : Partial) : Prop where
  pos : 0 < p.tails
  low : 0x80 ≤ p.low.toNat
  high : p.high.toNat ≤ 0xBF

theorem Opens.lt (h : Opens n p) : n < 256 := by
  cases h <;> omega

theorem Opens.proper (h : Opens n p) : p.Proper := by
  cases h <;> exact ⟨by simp, by simp, by simp⟩

/-- What a first byte awaits are characters that start with it. -/
theorem Opens.lead_eq (h : Opens n p) (hv : p.Awaits v) :
    v.isValidChar ∧ 0x80 ≤ v ∧ lead v = (n, p.tails) := by
  obtain ⟨hbits, hlow, hhigh⟩ := hv
  unfold lead Nat.isValidChar
  cases h <;> simp at hbits hlow hhigh ⊢ <;> grind

/-- Every character beyond ASCII is awaited behind its first byte. -/
theorem exists_opens (hvalid : v.isValidChar) (hwide : 0x80 ≤ v) :
    ∃ p, Opens (lead v).1 p ∧ p.Awaits v ∧ p.tails = (lead v).2 := by
  unfold Nat.isValidChar at hvalid
  unfold lead
  by_cases h2 : v < 0x800
  · rw [if_pos h2]
    exact ⟨_, .two (by omega) (by omega), ⟨by simp; omega, by simp, by simp; omega⟩, rfl⟩
  by_cases h3 : v < 0x10000
  · rw [if_neg h2, if_pos h3]
    by_cases hleast : v < 0x1000
    · exact ⟨_, .threeLeast (by simp; omega), ⟨by simp; omega, by simp; omega, by simp; omega⟩, rfl⟩
    by_cases hsurrogate : 0xD000 ≤ v ∧ v < 0xE000
    · exact ⟨_, .threeSurrogate (by simp; omega), ⟨by simp; omega, by simp, by simp; omega⟩, rfl⟩
    · exact ⟨_, .three (by simp; omega) (by simp; omega) (by simp; omega),
        ⟨by simp; omega, by simp, by simp; omega⟩, rfl⟩
  · rw [if_neg h2, if_neg h3]
    by_cases hleast : v < 0x40000
    · exact ⟨_, .fourLeast (by simp; omega), ⟨by simp; omega, by simp; omega, by simp; omega⟩, rfl⟩
    by_cases hgreatest : v < 0x100000
    · exact ⟨_, .four (by simp; omega) (by simp; omega),
        ⟨by simp; omega, by simp, by simp; omega⟩, rfl⟩
    · exact ⟨_, .fourGreatest (by simp; omega), ⟨by simp; omega, by simp, by simp; omega⟩, rfl⟩

/-! ## Tails -/

/-- A character under way whose next byte may be any tail, with `n + 1` groups of `v` to come. -/
def within (v n : Nat) : Partial := ⟨n + 1, 0x80, 0xBF, v / 64 ^ (n + 1)⟩

theorem within_proper (v n : Nat) : (within v n).Proper :=
  ⟨n.succ_pos, Nat.le_refl 0x80, Nat.le_refl 0xBF⟩

theorem within_awaits (v n : Nat) : (within v n).Awaits v :=
  ⟨rfl, Nat.le_add_left _ _, Nat.add_le_add_right (Nat.le_of_lt_succ (Nat.mod_lt _ (by decide))) _⟩

theorem groups_succ (v n : Nat) : v / 64 ^ (n + 1) * 64 + v / 64 ^ n % 64 = v / 64 ^ n := by
  rw [Nat.pow_succ, ← Nat.div_div_eq_div_mul, Nat.div_add_mod']

/-- What a tail leads to, with `n` others behind it. -/
def behindTail (v : Nat) : Nat → Step
  | 0 => .char (Char.ofNat v)
  | n + 1 => .more (within v n)

theorem extend?_eq (hn : p.tails = n + 1) (hlow : p.low ≤ b) (hhigh : b ≤ p.high)
    (hv : p.bits * 64 + b.toNat % 64 = v / 64 ^ n) : p.extend? b = some (behindTail v n) := by
  simp only [Partial.extend?, hlow, hhigh, decide_true, Bool.and_self, if_true, hv, hn]
  cases n with
  | zero => simp [behindTail]
  | succ n => simp [behindTail, within]

/-- The tail of an awaited number is taken in. -/
theorem extend?_tail (hn : p.tails = n + 1) (hv : p.Awaits v) :
    p.extend? (tail v n) = some (behindTail v n) := by
  obtain ⟨hbits, hlow, hhigh⟩ := hv
  rw [hn] at hbits hlow hhigh
  apply extend?_eq hn
  · rwa [UInt8.le_iff_toNat_le, toNat_tail]
  · rwa [UInt8.le_iff_toNat_le, toNat_tail]
  · rw [← hbits, toNat_tail, ← groups_succ v n]
    omega

/-- Nothing else is: a byte that is taken in is the tail of every number it leaves awaited. -/
theorem awaits_of_bits (hn : p.tails = n + 1) (hp : p.Proper) (hlow : p.low ≤ b) (hhigh : b ≤ p.high)
    (hv : v / 64 ^ n = p.bits * 64 + b.toNat % 64) : p.Awaits v ∧ b = tail v n := by
  rw [UInt8.le_iff_toNat_le] at hlow hhigh
  have hproper := hp.low
  have hproper' := hp.high
  have hgroups := groups_succ v n
  have hb : v / 64 ^ n % 64 + 0x80 = b.toNat := by omega
  refine ⟨⟨?_, ?_, ?_⟩, ?_⟩
  · rw [hn]
    omega
  · rwa [hn, Nat.add_sub_cancel, hb]
  · rwa [hn, Nat.add_sub_cancel, hb]
  · rw [← UInt8.toNat_inj, toNat_tail, hb]

/-! ## Reading -/

theorem chars_char {inside : Option Partial} {broken : List Char}
    (h : step inside b = (broken, .char c)) :
    chars inside (b :: bs) = broken ++ c :: chars none bs := by
  simp only [chars, h]

theorem chars_more {inside : Option Partial} {broken : List Char}
    (h : step inside b = (broken, .more p)) :
    chars inside (b :: bs) = broken ++ chars (some p) bs := by
  simp only [chars, h]

theorem step_none (b : UInt8) : step none b = ([], start b) := rfl

theorem step_some {s : Step} (h : p.extend? b = some s) : step (some p) b = ([], s) := by
  simp only [step, h]

/-- The tails of an awaited number are read as its character. -/
theorem chars_tails (hn : p.tails = n + 1) (hv : p.Awaits v) (bs : Bytes) :
    chars (some p) (tails v (n + 1) ++ bs) = Char.ofNat v :: chars none bs := by
  have hstep := step_some (extend?_tail hn hv)
  induction n generalizing p with
  | zero => exact chars_char hstep
  | succ n ih =>
    refine (chars_more hstep).trans ?_
    exact ih rfl (within_awaits v n) (step_some (extend?_tail rfl (within_awaits v n)))

/-- Where nothing is replaced, the next byte is within its bounds. -/
theorem exists_cons (h : replacement ∉ chars (some p) bs) :
    ∃ b rest, bs = b :: rest ∧ p.low ≤ b ∧ b ≤ p.high := by
  cases bs with
  | nil => simp [chars] at h
  | cons b rest =>
    by_cases hbounds : p.low ≤ b ∧ b ≤ p.high
    · exact ⟨b, rest, rfl, hbounds⟩
    · simp [chars, step, Partial.extend?, hbounds] at h

/-- Bytes that are read without a replacement go on with the tails of a number that is awaited. -/
theorem exists_tails (hn : p.tails = n + 1) (hp : p.Proper) (h : replacement ∉ chars (some p) bs) :
    ∃ v rest, p.Awaits v ∧ bs = tails v (n + 1) ++ rest := by
  induction n generalizing p bs with
  | zero =>
    obtain ⟨b, rest, rfl, hlow, hhigh⟩ := exists_cons h
    obtain ⟨hawaits, hb⟩ := awaits_of_bits hn hp hlow hhigh (Nat.div_one _)
    exact ⟨_, rest, hawaits, congrArg (· :: rest) hb⟩
  | succ n ih =>
    obtain ⟨b, rest, rfl, hlow, hhigh⟩ := exists_cons h
    have hbits : (p.bits * 64 + b.toNat % 64) * 64 ^ (n + 1) / 64 ^ (n + 1) =
        p.bits * 64 + b.toNat % 64 := Nat.mul_div_cancel _ (Nat.pow_pos (by decide))
    rw [chars_more (step_some (extend?_eq hn hlow hhigh hbits.symm))] at h
    obtain ⟨v, rest', hv, rfl⟩ := ih rfl (within_proper _ n) h
    obtain ⟨hawaits, rfl⟩ := awaits_of_bits hn hp hlow hhigh (hv.bits.trans hbits)
    exact ⟨v, rest', hawaits, rfl⟩

/-! ## Texts and bytes -/

/-- **A character is read back from its bytes.** -/
theorem chars_utf8EncodeChar (c : Char) (bs : Bytes) :
    chars none (String.utf8EncodeChar c ++ bs) = c :: chars none bs := by
  by_cases hascii : c.toNat < 0x80
  · have hstep := (step_none _).trans (congrArg _ (start_ofNat hascii))
    rw [utf8EncodeChar_ascii hascii, List.singleton_append, chars_char hstep, Char.ofNat_toNat]
    rfl
  · have hwide := Nat.le_of_not_lt hascii
    have hvalid : c.toNat.isValidChar := c.valid
    obtain ⟨p, hopens, hv, htails⟩ := exists_opens hvalid hwide
    obtain ⟨n, hn⟩ := Nat.exists_eq_succ_of_ne_zero hopens.proper.pos.ne'
    have hlead : (UInt8.ofNat (lead c.toNat).1).toNat = (lead c.toNat).1 := by
      rw [UInt8.toNat_ofNat', Nat.mod_eq_of_lt hopens.lt]
    have hstep := (step_none _).trans (congrArg _ (start_eq_more_iff.mpr (hlead.symm ▸ hopens)))
    rw [utf8EncodeChar_wide hwide, List.cons_append, chars_more hstep, ← htails, hn]
    exact (chars_tails hn hv bs).trans (by rw [Char.ofNat_toNat])

theorem chars_flatMap (cs : List Char) (bs : Bytes) :
    chars none (cs.flatMap String.utf8EncodeChar ++ bs) = cs ++ chars none bs := by
  induction cs with
  | nil => rfl
  | cons c cs ih => rw [List.flatMap_cons, List.append_assoc, chars_utf8EncodeChar, ih, List.cons_append]

/-- **Texts are read back from their bytes.** -/
theorem decode_encoded (s : String) : decode (encode s) = s := by
  have hread := chars_flatMap s.toList []
  rw [List.append_nil] at hread
  rw [decode, encode, hread, chars]
  simp

theorem flatMap_chars (h : replacement ∉ chars none bs) :
    (chars none bs).flatMap String.utf8EncodeChar = bs := by
  induction hlength : bs.length using Nat.strongRecOn generalizing bs with
  | ind k ih =>
  cases bs with
  | nil => rfl
  | cons b rest =>
    cases hstart : start b with
    | char c =>
      have hstep := (step_none b).trans (congrArg _ hstart)
      rw [chars_char hstep, List.nil_append, List.mem_cons, not_or] at h
      rw [chars_char hstep, List.nil_append, List.flatMap_cons,
        ih rest.length (by simp [← hlength]) h.2 rfl]
      rcases start_eq_char hstart with rfl | ⟨hascii, rfl⟩
      · exact absurd rfl h.1
      · have hvalue : (Char.ofNat b.toNat).toNat = b.toNat := by
          rw [Char.toNat_ofNat, if_pos (.inl (by omega))]
        rw [utf8EncodeChar_ascii (hvalue.symm ▸ hascii), hvalue, UInt8.ofNat_toNat]
        rfl
    | more p =>
      have hstep := (step_none b).trans (congrArg _ hstart)
      have hopens := start_eq_more_iff.mp hstart
      obtain ⟨n, hn⟩ := Nat.exists_eq_succ_of_ne_zero hopens.proper.pos.ne'
      rw [chars_more hstep, List.nil_append] at h
      obtain ⟨v, rest, hv, rfl⟩ := exists_tails hn hopens.proper h
      obtain ⟨hvalid, hwide, hlead⟩ := hopens.lead_eq hv
      rw [chars_tails hn hv, List.mem_cons, not_or] at h
      have hvalue : (Char.ofNat v).toNat = v := by
        rw [Char.toNat_ofNat, if_pos hvalid]
      rw [chars_more hstep, List.nil_append, chars_tails hn hv, List.flatMap_cons,
        ih rest.length (by simp [← hlength]) h.2 rfl,
        utf8EncodeChar_wide (hvalue.symm ▸ hwide), hvalue, hlead, hn, UInt8.ofNat_toNat]
      rfl

/-- **Bytes that are read without a replacement are those of the text.** -/
theorem encode_decode (h : replacement ∉ (decode bs).toList) : encode (decode bs) = bs := by
  rw [decode, String.toList_ofList] at h
  rw [encode, decode, String.toList_ofList, flatMap_chars h]

/-! ## Bytes that are told apart by their text -/

/-- Well-formed bytes are told apart. -/
theorem WellFormed.eq_of_decode_eq {bs' : Bytes} (h : WellFormed bs) (h' : WellFormed bs')
    (htext : decode bs = decode bs') : bs = bs' := by
  obtain ⟨s, rfl⟩ := h
  obtain ⟨t, rfl⟩ := h'
  rw [decode_encoded, decode_encoded] at htext
  rw [htext]

/-- A byte that can start no character is read as the replacement. -/
theorem chars_none_ff (bs : Bytes) : chars none (0xFF :: bs) = replacement :: chars none bs :=
  chars_char (step_none 0xFF)

/-- A text with the replacement character is read from other bytes as well: from its own, or, where the
bytes are its own, from those with a damaged byte in place of the character. -/
theorem exists_decode_eq (h : replacement ∈ (decode bs).toList) :
    ∃ bs', bs' ≠ bs ∧ decode bs' = decode bs := by
  by_cases hwell : WellFormed bs
  · obtain ⟨s, rfl⟩ := hwell
    rw [decode_encoded] at h
    obtain ⟨before, after, hs⟩ := List.append_of_mem h
    refine ⟨before.flatMap String.utf8EncodeChar ++ 0xFF :: after.flatMap String.utf8EncodeChar,
      fun heq => ?_, ?_⟩
    · have hlength := congrArg List.length heq
      have hthree : (String.utf8EncodeChar replacement).length = 3 := rfl
      rw [encode, hs, List.flatMap_append, List.flatMap_cons] at hlength
      simp only [List.length_append, List.length_cons, hthree] at hlength
      omega
    · have hafter := chars_flatMap after []
      rw [List.append_nil] at hafter
      rw [decode_encoded, decode, chars_flatMap, chars_none_ff, hafter]
      simp [chars, ← hs]
  · refine ⟨encode (decode bs), fun heq => hwell ⟨decode bs, heq.symm⟩, ?_⟩
    rw [decode_encoded]

/-- **The text tells all about the bytes unless it has the replacement character.** -/
theorem decode_unique_iff :
    (∀ bs', decode bs' = decode bs → bs' = bs) ↔ replacement ∉ (decode bs).toList := by
  constructor
  · intro hunique hmem
    obtain ⟨bs', hne, hsame⟩ := exists_decode_eq hmem
    exact hne (hunique bs' hsame)
  · intro hmem bs' hsame
    rw [← encode_decode hmem, ← hsame, encode_decode (hsame ▸ hmem)]

end PdfScene.Utf8
