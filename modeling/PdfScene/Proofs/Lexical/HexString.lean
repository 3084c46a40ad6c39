import PdfScene.Filter.AsciiHex
import PdfScene.Proofs.Lexical.Name
import PdfScene.Proofs.Lexical.TokenList

/-!
# Hex digits in strings and in encoded data

The bytes of a hex string are written as those of data under `ASCIIHexDecode` are, and each has a
decoder of its own: the string is read digit by digit with the first half of a byte held back
(`HexString.body`), the data is cut at its end mark, cleared of all that is no digit and then taken in
pairs (`AsciiHex.decode`). They agree on every input (`HexString.scan_eq_decode`), and what either reads
is what the digits spell (`HexString.Spells`, `HexString.spells_iff_decode`).
-/

set_option autoImplicit false

namespace PdfScene

open Byte

namespace HexString

/-- The byte that ends the digits. -/
def mark : UInt8 := 0x3E

/-- Bytes that count for nothing among the digits. -/
def Idle (gap : Bytes) : Prop := ∀ b ∈ gap, hexValue? b = none ∧ b ≠ mark

/-- The text spells the bytes: two digits for each, with anything idle between any of them. The last
byte may do without its second digit if that is zero. -/
inductive Spells : Bytes → Bytes → Prop where
  | nil : Spells [] []
  | idle {c : UInt8} {text bytes : Bytes} (hc : hexValue? c = none) (hmark : c ≠ mark)
      (h : Spells text bytes) : Spells (c :: text) bytes
  | pair {d e b high low : UInt8} {gap text bytes : Bytes} (hd : hexValue? d = some high)
      (hgap : Idle gap) (he : hexValue? e = some low) (hb : b.toNat = 16 * high.toNat + low.toNat)
      (h : Spells text bytes) : Spells (d :: (gap ++ e :: text)) (b :: bytes)
  | half {d b high : UInt8} {gap : Bytes} (hd : hexValue? d = some high) (hgap : Idle gap)
      (hb : b.toNat = 16 * high.toNat) : Spells (d :: gap) [b]

variable {text bytes rest : Bytes}

/-! ## The two decoders -/

/-- The values of the digits in front of the end mark. -/
def values (bs : Bytes) : List UInt8 := (bs.takeWhile (· != mark)).filterMap hexValue?

/-- What follows the first end mark, nothing if there is none. -/
def behindMark (bs : Bytes) : Bytes := (bs.dropWhile (· != mark)).drop 1

@[simp]
theorem values_mark (bs : Bytes) : values (mark :: bs) = [] := rfl

@[simp]
theorem behindMark_mark (bs : Bytes) : behindMark (mark :: bs) = bs := rfl

theorem values_cons {c : UInt8} (hc : c ≠ mark) (bs : Bytes) :
    values (c :: bs) = (hexValue? c).toList ++ values bs := by
  rw [values, List.takeWhile_cons_of_pos (by simpa using hc)]
  cases h : hexValue? c with
  | none => rw [List.filterMap_cons_none h]; rfl
  | some digit => rw [List.filterMap_cons_some h]; rfl

theorem behindMark_cons {c : UInt8} (hc : c ≠ mark) (bs : Bytes) :
    behindMark (c :: bs) = behindMark bs := by
  rw [behindMark, List.dropWhile_cons_of_pos (by simpa using hc), behindMark]

/-- A first half that is held back is one more digit in front. -/
theorem body_eq_pairs (high : Option UInt8) (done bs : Bytes) :
    body high done bs = (AsciiHex.pairs done (high.toList ++ values bs), behindMark bs) := by
  have hother : ∀ {c : UInt8}, ¬ (c == 0x3E) = true → c ≠ mark :=
    fun h heq => h (beq_iff_eq.mpr heq)
  fun_induction body high done bs with
  | case1 high done => cases high <;> rfl
  | case2 high done c rest hmark =>
    obtain rfl : c = mark := beq_iff_eq.mp hmark
    rw [values_mark, behindMark_mark]
    cases high <;> rfl
  | case3 done c rest hmark low high hvalue ih =>
    rw [ih, values_cons (hother hmark), behindMark_cons (hother hmark), hvalue]
    rfl
  | case4 done c rest hmark digit hvalue ih =>
    rw [ih, values_cons (hother hmark), behindMark_cons (hother hmark), hvalue]
    rfl
  | case5 done c rest hmark high hvalue ih =>
    rw [ih, values_cons (hother hmark), behindMark_cons (hother hmark), hvalue]
    rfl

/-- **The two decoders agree.** -/
theorem scan_eq_decode (bs : Bytes) : scan bs = (AsciiHex.decode bs, behindMark bs) :=
  body_eq_pairs none [] bs

/-! ## What is spelled -/

theorem Idle.filterMap {gap : Bytes} (h : Idle gap) : gap.filterMap hexValue? = [] :=
  List.filterMap_eq_nil_iff.mpr fun b hb => (h b hb).1

theorem hexValue?_mark : hexValue? mark = none := rfl

/-- A digit is no end mark. -/
theorem ne_mark {d high : UInt8} (hd : hexValue? d = some high) : d ≠ mark := by
  rintro rfl
  cases hexValue?_mark.symm.trans hd

/-- No end mark stands in what is spelled. -/
theorem Spells.ne_mark (h : Spells text bytes) : ∀ b ∈ text, b ≠ mark := by
  induction h with
  | nil => nofun
  | idle _ hmark _ ih => exact List.forall_mem_cons.mpr ⟨hmark, ih⟩
  | pair hd hgap he _ _ ih =>
    refine List.forall_mem_cons.mpr ⟨HexString.ne_mark hd, List.forall_mem_append.mpr ⟨?_, ?_⟩⟩
    · exact fun b hb => (hgap b hb).2
    · exact List.forall_mem_cons.mpr ⟨HexString.ne_mark he, ih⟩
  | half hd hgap _ =>
    exact List.forall_mem_cons.mpr ⟨HexString.ne_mark hd, fun b hb => (hgap b hb).2⟩

/-- The digits of a spelling, taken in pairs, are the bytes that it spells. -/
theorem Spells.pairs_eq (h : Spells text bytes) (done : Bytes) :
    AsciiHex.pairs done (text.filterMap hexValue?) = done.reverse ++ bytes := by
  induction h generalizing done with
  | nil => simp [AsciiHex.pairs]
  | idle hc _ _ ih => rw [List.filterMap_cons_none hc, ih]
  | @pair d e b high low gap text bytes hd hgap he hb _ ih =>
    have hjoined := Name.join_halves (Name.toNat_hexValue?_lt hd) (Name.toNat_hexValue?_lt he) hb
    rw [List.filterMap_cons_some hd, List.filterMap_append, hgap.filterMap, List.nil_append,
      List.filterMap_cons_some he, AsciiHex.pairs, hjoined, ih]
    simp
  | @half d b high gap hd hgap hb =>
    have hjoined := Name.join_halves (Name.toNat_hexValue?_lt hd)
      (by decide : (0 : UInt8).toNat < 16) hb
    rw [List.filterMap_cons_some hd, hgap.filterMap, AsciiHex.pairs, ← hjoined]
    simp

theorem pairs_eq_append (done : Bytes) (digits : List UInt8) :
    AsciiHex.pairs done digits = done.reverse ++ AsciiHex.pairs [] digits := by
  induction digits using List.twoStepInduction generalizing done with
  | nil => simp [AsciiHex.pairs]
  | singleton high => simp [AsciiHex.pairs]
  | cons_cons high low digits ih _ =>
    rw [AsciiHex.pairs, ih, AsciiHex.pairs, ih [_]]
    simp

theorem toNat_join {high low : UInt8} (hhigh : high.toNat < 16) (hlow : low.toNat < 16) :
    (high <<< 4 ||| low).toNat = 16 * high.toNat + low.toNat := by
  have hnumber : (UInt8.ofNat (16 * high.toNat + low.toNat)).toNat = 16 * high.toNat + low.toNat :=
    UInt8.toNat_ofNat_of_lt' (by rw [UInt8.size]; omega)
  rw [Name.join_halves hhigh hlow hnumber, hnumber]

/-- What stands in front of the next digit, if there is one. -/
theorem exists_gap (bs : Bytes) : ∃ gap tail, bs = gap ++ tail ∧
    (∀ b ∈ gap, hexValue? b = none) ∧ ∀ e text, tail = e :: text → ∃ low, hexValue? e = some low := by
  refine ⟨_, _, (List.takeWhile_append_dropWhile (p := fun b => (hexValue? b).isNone)).symm,
    fun b hb => by simpa using List.mem_takeWhile_imp hb, fun e text htail => ?_⟩
  have hdigit := List.head?_dropWhile_not (fun b => (hexValue? b).isNone) bs
  rw [htail, List.head?_cons] at hdigit
  exact Option.ne_none_iff_exists'.mp fun hnone => by simp [hnone] at hdigit

/-- Any bytes without an end mark are a spelling. A digit takes the idle bytes up to the next one with
it, so the induction is on how many bytes there are. -/
theorem spells_pairs (text : Bytes) (h : ∀ b ∈ text, b ≠ mark) :
    Spells text (AsciiHex.pairs [] (text.filterMap hexValue?)) := by
  induction hn : text.length using Nat.strongRecOn generalizing text with
  | ind n ih =>
    subst hn
    match text with
    | [] => exact .nil
    | d :: rest =>
      obtain ⟨hdmark, hrest⟩ := List.forall_mem_cons.mp h
      cases hd : hexValue? d with
      | none =>
        rw [List.filterMap_cons_none hd]
        exact .idle hd hdmark (ih _ (Nat.lt_succ_self _) rest hrest rfl)
      | some high =>
        have hhigh := Name.toNat_hexValue?_lt hd
        obtain ⟨gap, tail, rfl, hidle, hdigit⟩ := exists_gap rest
        have hgap : Idle gap := fun b hb =>
          ⟨hidle b hb, hrest b (List.mem_append_left _ hb)⟩
        rw [List.filterMap_cons_some hd, List.filterMap_append, hgap.filterMap, List.nil_append]
        cases tail with
        | nil =>
          rw [List.append_nil]
          have hhalf := toNat_join hhigh (by decide : (0 : UInt8).toNat < 16)
          exact .half hd hgap (by simpa using hhalf)
        | cons e text =>
          obtain ⟨low, he⟩ := hdigit e text rfl
          rw [List.filterMap_cons_some he, AsciiHex.pairs, pairs_eq_append]
          refine .pair hd hgap he (toNat_join hhigh (Name.toNat_hexValue?_lt he)) ?_
          refine ih _ ?_ text (fun b hb => hrest b ?_) rfl
          · simp
            omega
          · simp [hb]

/-- **What is decoded is what is spelled in front of the end mark**, and nothing else is spelled
there. -/
theorem spells_iff_decode {data : Bytes} :
    Spells (data.takeWhile (· != mark)) bytes ↔ AsciiHex.decode data = bytes := by
  constructor
  · intro h
    exact h.pairs_eq []
  · rintro rfl
    refine spells_pairs _ fun b hb => ?_
    simpa using List.mem_takeWhile_imp hb

/-- A spelling up to its end mark or to the end of the input. -/
theorem Spells.takeWhile_eq (h : Spells text bytes) (hrest : rest.head?.all (· == mark) = true) :
    (text ++ rest).takeWhile (· != mark) = text ∧ behindMark (text ++ rest) = rest.drop 1 := by
  have htext : ∀ b ∈ text, (b != mark) = true := fun b hb => by simpa using h.ne_mark b hb
  rw [behindMark, List.takeWhile_append_of_pos htext, List.dropWhile_append_of_pos htext]
  cases rest with
  | nil => simp
  | cons e rest =>
    obtain rfl : e = mark := by simpa using hrest
    simp

/-- Data that spells some bytes up to its end mark is decoded as these. -/
theorem Spells.decode_eq (h : Spells text bytes) (hrest : rest.head?.all (· == mark) = true) :
    AsciiHex.decode (text ++ rest) = bytes := by
  rw [← spells_iff_decode, (h.takeWhile_eq hrest).1]
  exact h

end HexString

/-- **A hex string is what `ASCIIHexDecode` makes of its digits**, whatever stands behind the bracket,
and any spelling of some bytes is decoded as these by either. The cursor stops behind the first closing
bracket, or at the end of the input if there is none. -/
theorem Cursor.next_hexString {c : Cursor} {data : Bytes} (hfirst : data.head? ≠ some 0x3C)
    (hc : c.rest = 0x3C :: data) :
    c.next = (.ok (.hexStr (AsciiHex.decode data)), { c with rest := HexString.behindMark data }) ∧
      ∀ text rest bytes, HexString.Spells text bytes → rest.head?.all (· == HexString.mark) = true →
        data = text ++ rest →
        AsciiHex.decode data = bytes ∧ c.next = (.ok (.hexStr bytes), { c with rest := rest.drop 1 }) := by
  have hnext : c.next =
      (.ok (.hexStr (AsciiHex.decode data)), { c with rest := HexString.behindMark data }) := by
    apply Cursor.next_of_scan
    have hscan : Token.scan (0x3C :: data) = Token.scanFrom 0x3C data := rfl
    rw [hc, hscan, Token.scanFrom_hexStr hfirst, HexString.scan_eq_decode]
  refine ⟨hnext, fun text rest bytes hspells hrest hdata => ?_⟩
  subst hdata
  have hdecode := hspells.decode_eq hrest
  rw [hdecode, (hspells.takeWhile_eq hrest).2] at hnext
  exact ⟨hdecode, hnext⟩

/-- Digits of either case among blanks and other bytes, the last one by itself. -/
theorem Cursor.next_hexString_odd :
    let text : Bytes := [0x34, 0x20, 0x61, 0x25, 0x0A, 0x5D, 0x46]
    let data := text ++ [0x3E, 0x5D]
    data.head? ≠ some 0x3C ∧ HexString.Spells text [0x4A, 0xF0] ∧
      AsciiHex.decode data = [0x4A, 0xF0] ∧
      (Cursor.ofBytes (0x3C :: data) 0).next =
        (.ok (.hexStr [0x4A, 0xF0]), ⟨0x3C :: data, 0, [0x5D]⟩) := by
  intro text data
  have hgap : HexString.Idle [0x20] := fun b hb => by
    obtain rfl := List.mem_singleton.mp hb
    exact ⟨rfl, by decide⟩
  have hspells : HexString.Spells text [0x4A, 0xF0] :=
    @HexString.Spells.pair 0x34 0x61 0x4A 4 0xA [0x20] _ _ rfl hgap rfl rfl <|
      .idle rfl (by decide) <| .idle rfl (by decide) <| .idle rfl (by decide) <| .half rfl nofun rfl
  have hfirst : data.head? ≠ some 0x3C := by decide
  obtain ⟨-, hread⟩ := Cursor.next_hexString (c := .ofBytes (0x3C :: data) 0) hfirst rfl
  obtain ⟨hdecode, hnext⟩ := hread text [0x3E, 0x5D] [0x4A, 0xF0] hspells rfl rfl
  exact ⟨hfirst, hspells, hdecode, hnext⟩

end PdfScene
