import Mathlib
import PdfScene.Lexical.Cursor
import PdfScene.Proofs.Lexical.LineFeed
import PdfScene.Proofs.Lexical.TokenList
import PdfScene.Proofs.Text.Utf8

/-!
# Names and how they are spelled

A name has many spellings: any byte of it may be written as a number sign and two hex digits, and a
regular byte may as well stand for itself (`Name.Spells`). Every spelling is read back
(`Cursor.next_name`). Names are texts, though, and bytes that are no UTF-8 are repaired on the way, so
names are told apart exactly as far as their texts tell their bytes (`Name.Spells.read_apart`).
-/

set_option autoImplicit false

namespace PdfScene

open Byte

namespace Name

/-- The text spells the bytes of a name. A number sign stands for itself where the text does not go on
with two hex digits. -/
inductive Spells : Bytes → Bytes → Prop where
  | nil : Spells [] []
  | plain {b : UInt8} {text bytes : Bytes} (hends : endsToken b = false) (hsign : b ≠ 0x23)
      (h : Spells text bytes) : Spells (b :: text) (b :: bytes)
  | escaped {d e b high low : UInt8} {text bytes : Bytes} (hd : hexValue? d = some high)
      (he : hexValue? e = some low) (hb : b.toNat = 16 * high.toNat + low.toNat)
      (h : Spells text bytes) : Spells (0x23 :: d :: e :: text) (b :: bytes)
  | sign {text bytes : Bytes}
      (halone : ∀ d e rest, text = d :: e :: rest → hexValue? d = none ∨ hexValue? e = none)
      (h : Spells text bytes) : Spells (0x23 :: text) (0x23 :: bytes)

variable {text bytes rest : Bytes}

theorem toNat_hexValue?_lt {d n : UInt8} (h : hexValue? d = some n) : n.toNat < 16 := by
  have hall : ∀ i : Fin 256, (hexValue? (UInt8.ofNat i)).all (·.toNat < 16) = true := by
    decide +kernel
  have hd := hall ⟨d.toNat, d.toNat_lt⟩
  rw [UInt8.ofNat_toNat, h] at hd
  simpa using hd

theorem join_halves {b high low : UInt8} (hhigh : high.toNat < 16) (hlow : low.toNat < 16)
    (hb : b.toNat = 16 * high.toNat + low.toNat) : high <<< 4 ||| low = b := by
  have hall : ∀ i j : Fin 16, UInt8.ofNat i <<< 4 ||| UInt8.ofNat j = UInt8.ofNat (16 * i + j) := by
    decide +kernel
  have hjoined := hall ⟨high.toNat, hhigh⟩ ⟨low.toNat, hlow⟩
  rw [UInt8.ofNat_toNat, UInt8.ofNat_toNat] at hjoined
  rw [hjoined, ← hb, UInt8.ofNat_toNat]

theorem spelled?_digits {d e b high low : UInt8} (hd : hexValue? d = some high)
    (he : hexValue? e = some low) (hb : b.toNat = 16 * high.toNat + low.toNat) (rest : Bytes) :
    spelled? (d :: e :: rest) = some (b, rest) := by
  have hjoined := join_halves (toNat_hexValue?_lt hd) (toNat_hexValue?_lt he) hb
  simp only [spelled?, hd, he, hjoined]

theorem spelled?_alone
    (halone : ∀ d e tail, text = d :: e :: tail → hexValue? d = none ∨ hexValue? e = none)
    (hrest : rest.head?.all endsToken = true) : spelled? (text ++ rest) = none := by
  have hnone : spelled? text = none := by
    match text with
    | [] => rfl
    | [d] => rfl
    | d :: e :: tail =>
      rcases halone d e tail rfl with h | h <;> simp [spelled?, h]
  cases rest with
  | nil => rwa [List.append_nil]
  | cons e rest => exact spelled?_of_endsToken (by simpa using hrest) hnone rest

/-- **A spelling is read as the bytes that it spells.** -/
theorem Spells.body_eq (h : Spells text bytes) (hrest : rest.head?.all endsToken = true)
    (done : Bytes) : body done (text ++ rest) = (done.reverse ++ bytes, rest) := by
  induction h generalizing done with
  | nil =>
    cases rest with
    | nil => simp [body]
    | cons e rest =>
      have hends : endsToken e = true := by simpa using hrest
      simp [body, hends]
  | @plain b text bytes hends hsign _ ih =>
    rw [List.cons_append, body, if_neg (by simp [hends]), if_neg (by simp [hsign]), ih]
    simp
  | @escaped d e b high low text bytes hd he hb _ ih =>
    have hspelled := spelled?_digits hd he hb (text ++ rest)
    rw [List.cons_append, List.cons_append, List.cons_append, body, if_neg (by decide),
      if_pos (by decide), hspelled]
    exact (ih _).trans (by simp)
  | @sign text bytes halone _ ih =>
    rw [List.cons_append, body, if_neg (by decide), if_pos (by decide), spelled?_alone halone hrest, ih]
    simp

/-- A name in front of a blank, a delimiter or the end of the input. -/
theorem Spells.scan_eq (h : Spells text bytes) (hrest : rest.head?.all endsToken = true) :
    Token.scan (0x2F :: (text ++ rest)) = (.ok (.name (Utf8.decode bytes)), rest) := by
  have hscan : Token.scan (0x2F :: (text ++ rest)) =
      (.ok (.name (Name.scan (text ++ rest)).1), (Name.scan (text ++ rest)).2) := rfl
  rw [hscan, Name.scan, h.body_eq hrest []]
  rfl

/-! ## Names that are told apart -/

/-- A byte as a number sign and two hex digits. -/
def escape (b : UInt8) : Bytes := 0x23 :: HexString.digits b

theorem toNat_halves (b : UInt8) : b.toNat = 16 * (b >>> 4).toNat + (b &&& 0xF).toNat := by
  have hhigh : (b >>> 4).toNat = b.toNat / 16 := Nat.shiftRight_eq_div_pow b.toNat 4
  have hlow : (b &&& 0xF).toNat = b.toNat % 16 := Nat.and_two_pow_sub_one_eq_mod b.toNat 4
  rw [hhigh, hlow]
  omega

/-- Any bytes at all can be spelled. -/
theorem spells_escape (bytes : Bytes) : Spells (bytes.flatMap escape) bytes := by
  induction bytes with
  | nil => exact .nil
  | cons b bytes ih =>
    obtain ⟨hhigh, hlow, -⟩ := HexString.halves b
    exact .escaped (HexString.hexValue?_digit hhigh).2.2 (HexString.hexValue?_digit hlow).2.2
      (toNat_halves b) ih

/-- **Which bytes are read as the same name.** Others than those that were written may be, but only if
the name holds a replacement character and not both are well-formed; and if it does, some are. -/
theorem Spells.read_apart (h : Spells text bytes) (hrest : rest.head?.all endsToken = true) :
    ∃ name, Token.scan (0x2F :: (text ++ rest)) = (.ok (.name name), rest) ∧
      (∀ text' bytes' rest', Spells text' bytes' → rest'.head?.all endsToken = true →
        (Token.scan (0x2F :: (text' ++ rest'))).1 = .ok (.name name) →
        bytes' = bytes ∨ Utf8.replacement ∈ name.toList ∧
          ¬(Utf8.WellFormed bytes ∧ Utf8.WellFormed bytes')) ∧
      (Utf8.replacement ∈ name.toList → ∃ bytes', bytes' ≠ bytes ∧
        Token.scan (0x2F :: bytes'.flatMap escape) = (.ok (.name name), [])) := by
  have hend : ([] : Bytes).head?.all endsToken = true := rfl
  refine ⟨Utf8.decode bytes, h.scan_eq hrest, fun text' bytes' rest' h' hrest' hname => ?_,
    fun hmem => ?_⟩
  · rw [h'.scan_eq hrest'] at hname
    have htext : Utf8.decode bytes' = Utf8.decode bytes := Token.name.inj (Except.ok.inj hname)
    by_cases hmem : Utf8.replacement ∈ (Utf8.decode bytes).toList
    · by_cases hwell : Utf8.WellFormed bytes ∧ Utf8.WellFormed bytes'
      · exact .inl (hwell.2.eq_of_decode_eq hwell.1 htext)
      · exact .inr ⟨hmem, hwell⟩
    · exact .inl (Utf8.decode_unique_iff.mpr hmem bytes' htext)
  · obtain ⟨bytes', hne, htext⟩ := Utf8.exists_decode_eq hmem
    have hscan := (spells_escape bytes').scan_eq hend
    rw [List.append_nil, htext] at hscan
    exact ⟨bytes', hne, hscan⟩

/-- An accented letter is well-formed, so nothing but its own bytes is read as it. -/
theorem Spells.read_apart_accented :
    Spells (Bytes.ofAscii "A#C3#a9") [0x41, 0xC3, 0xA9] ∧ ([0x20] : Bytes).head?.all endsToken = true ∧
      ∀ text' bytes' rest', Spells text' bytes' → rest'.head?.all endsToken = true →
        (Token.scan (0x2F :: (text' ++ rest'))).1 = .ok (.name "A\u00E9") →
        bytes' = [0x41, 0xC3, 0xA9] := by
  have hspells : Spells (Bytes.ofAscii "A#C3#a9") [0x41, 0xC3, 0xA9] :=
    .plain rfl (by decide) <| .escaped rfl rfl rfl <| .escaped rfl rfl rfl .nil
  have hblank : ([0x20] : Bytes).head?.all endsToken = true := rfl
  refine ⟨hspells, hblank, fun text' bytes' rest' hspells' hrest' hname => ?_⟩
  obtain ⟨name, hread, hapart, -⟩ := hspells.read_apart hblank
  obtain rfl : "A\u00E9" = name := by
    rw [hspells.scan_eq hblank] at hread
    exact Token.name.inj (Except.ok.inj (Prod.mk.inj hread).1)
  have hwhole : Utf8.replacement ∉ "A\u00E9".toList := by decide
  rcases hapart text' bytes' rest' hspells' hrest' hname with heq | ⟨hmem, -⟩
  · exact heq
  · exact absurd hmem hwhole

/-- Two bytes that start no character, and both are read as the replacement character. -/
theorem scan_confused :
    Spells (Bytes.ofAscii "#80") [0x80] ∧ Spells (Bytes.ofAscii "#81") [0x81] ∧
      Token.scan (0x2F :: Bytes.ofAscii "#80") = Token.scan (0x2F :: Bytes.ofAscii "#81") ∧
      Token.scan (0x2F :: Bytes.ofAscii "#80") = (.ok (.name "\uFFFD"), []) ∧
      ([0x80] : Bytes) ≠ [0x81] := by
  have h : Spells (Bytes.ofAscii "#80") [0x80] := .escaped rfl rfl rfl .nil
  have h' : Spells (Bytes.ofAscii "#81") [0x81] := .escaped rfl rfl rfl .nil
  have hend : ([] : Bytes).head?.all endsToken = true := rfl
  have hscan : Token.scan (0x2F :: Bytes.ofAscii "#80") = (.ok (.name "\uFFFD"), []) :=
    h.scan_eq hend
  have hscan' : Token.scan (0x2F :: Bytes.ofAscii "#81") = (.ok (.name "\uFFFD"), []) :=
    h'.scan_eq hend
  exact ⟨h, h', hscan.trans hscan'.symm, hscan, by decide⟩

end Name

variable {text rest : Bytes}

/-- **Every spelling of a text is read as the name that it is**, and the cursor stops behind it. -/
theorem Cursor.next_name {c : Cursor} {s : String} (h : Name.Spells text (Utf8.encode s))
    (hrest : rest.head?.all endsToken = true) (hc : c.rest = 0x2F :: (text ++ rest)) :
    c.next = (.ok (.name s), { c with rest }) := by
  apply Cursor.next_of_scan
  rw [hc, h.scan_eq hrest, Utf8.decode_encoded]

/-- A number sign for itself, one byte of a letter for itself and one escaped, and an escaped blank. -/
theorem Cursor.next_name_mixed :
    let text : Bytes := [0x61, 0x23, 0xC3, 0x23, 0x61, 0x39, 0x23, 0x32, 0x30, 0x42]
    Name.Spells text (Utf8.encode "a#\u00E9 B") ∧
      (Cursor.ofBytes (0x2F :: (text ++ [0x5B])) 0).next =
        (.ok (.name "a#\u00E9 B"), ⟨0x2F :: (text ++ [0x5B]), 0, [0x5B]⟩) := by
  intro text
  have hencode : Utf8.encode "a#\u00E9 B" = [0x61, 0x23, 0xC3, 0xA9, 0x20, 0x42] := by decide
  have hspells : Name.Spells text (Utf8.encode "a#\u00E9 B") := by
    rw [hencode]
    refine .plain rfl (by decide) (.sign ?_ ?_)
    · rintro d e rest ⟨⟩
      exact .inl rfl
    · exact .plain rfl (by decide) <| .escaped rfl rfl rfl <| .escaped rfl rfl rfl <|
        .plain rfl (by decide) .nil
  have hbracket : ([0x5B] : Bytes).head?.all endsToken = true := rfl
  exact ⟨hspells, Cursor.next_name hspells hbracket rfl⟩

end PdfScene
