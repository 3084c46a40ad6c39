import Mathlib
import PdfScene.Lexical.Cursor
import PdfScene.Proofs.Lexical.LineFeed

/-!
# Where the samples of an inline image end

Samples are any bytes, so the word that ends them counts only where it is set off: at their start or
behind a blank, and in front of a blank, a delimiter or the end of the input (`SetOff`). What stands in
front of the first such mark is taken verbatim, less the one blank that sets the mark off, and no mark
is ever passed over (`Cursor.inlineData_spec`).
-/

set_option autoImplicit false

namespace PdfScene

open Byte

namespace InlineData

/-- The word that ends the samples. -/
def mark : Bytes := Bytes.ofAscii "EI"

/-- A mark between `before` and `after` is set off on both sides. -/
structure SetOff (before after : Bytes) : Prop where
  front : before.getLast?.all isBlank = true
  behind : after.head?.all endsToken = true

/-- No mark in these bytes is set off. -/
def Unmarked (bs : Bytes) : Prop :=
  ∀ before after, bs = before ++ (mark ++ after) → ¬ SetOff before after

variable {done before after bs data rest : Bytes} {b w : UInt8}

/-- The bytes read so far end in a mark that is set off in front. -/
theorem endsInMark_iff : endsInMark done = true ↔
    ∃ before, done.reverse = before ++ mark ∧ before.getLast?.all isBlank = true := by
  constructor
  · intro h
    match done with
    | [] => cases h
    | [_] => cases h
    | i :: e :: before =>
      simp only [endsInMark, Bool.and_eq_true, beq_iff_eq] at h
      obtain ⟨⟨rfl, rfl⟩, hblank⟩ := h
      exact ⟨before.reverse, by simp [mark, Bytes.ofAscii], by simpa using hblank⟩
  · rintro ⟨before, hdone, hblank⟩
    obtain rfl : done = mark.reverse ++ before.reverse := by
      rw [← List.reverse_append, ← hdone, List.reverse_reverse]
    simp [mark, Bytes.ofAscii, endsInMark]
    simpa using hblank

/-- The bytes up to `b` end the samples in front of `rest`. -/
theorem ends_iff : (endsInMark (b :: done) && rest.head?.all endsToken) = true ↔
    ∃ before, (b :: done).reverse = before ++ mark ∧ SetOff before rest := by
  rw [Bool.and_eq_true, endsInMark_iff]
  constructor
  · rintro ⟨⟨before, hdone, hfront⟩, hbehind⟩
    exact ⟨before, hdone, hfront, hbehind⟩
  · rintro ⟨before, hdone, hfront, hbehind⟩
    exact ⟨⟨before, hdone, hfront⟩, hbehind⟩

/-- A mark that ends within `bs`: either with its first byte or behind that. -/
theorem isEnded_iff : isEnded done bs = true ↔
    ∃ before after, done.reverse ++ bs = before ++ (mark ++ after) ∧ SetOff before after ∧
      after.length < bs.length := by
  induction bs generalizing done with
  | nil => simp [isEnded]
  | cons b rest ih =>
    rw [isEnded, Bool.or_eq_true, ends_iff, ih]
    constructor
    · rintro (⟨before, hdone, hoff⟩ | ⟨before, after, hwhole, hoff, hlength⟩)
      · refine ⟨before, rest, ?_, hoff, by simp⟩
        rw [← List.append_assoc, ← hdone]
        simp
      · exact ⟨before, after, by simpa using hwhole, hoff, by simp; omega⟩
    · rintro ⟨before, after, hwhole, hoff, hlength⟩
      rw [List.length_cons] at hlength
      have hsplit : (b :: done).reverse ++ rest = (before ++ mark) ++ after := by simpa using hwhole
      rcases Nat.lt_or_eq_of_le (Nat.le_of_lt_succ hlength) with hless | hsame
      · exact .inr ⟨before, after, by simpa using hwhole, hoff, hless⟩
      · obtain ⟨hdone, rfl⟩ := List.append_inj' hsplit hsame.symm
        exact .inl ⟨before, hdone, hoff⟩

theorem unmarked_iff : Unmarked bs ↔ isEnded [] bs = false := by
  rw [← Bool.not_eq_true, isEnded_iff]
  constructor
  · rintro h ⟨before, after, hwhole, hoff, -⟩
    exact h before after hwhole hoff
  · intro h before after hwhole hoff
    refine h ⟨before, after, hwhole, hoff, ?_⟩
    rw [hwhole]
    simp [mark, Bytes.ofAscii]
    omega

instance (bs : Bytes) : Decidable (Unmarked bs) := decidable_of_iff _ unmarked_iff.symm

/-! ## What is read -/

/-- Bytes without a mark are passed over. -/
theorem body_append (h : isEnded done data = false) :
    body done (data ++ rest) = body (data.reverse ++ done) rest := by
  induction data generalizing done with
  | nil => rfl
  | cons b data ih =>
    rw [isEnded, Bool.or_eq_false_iff] at h
    have hgo : ¬ (endsInMark (b :: done) && (data ++ rest).head?.all endsToken) = true := by
      cases data with
      | nil =>
        have hnot : endsInMark (b :: done) = false := by simpa using h.1
        simp [hnot]
      | cons d data => simpa using h.1
    rw [List.cons_append, body, if_neg hgo, ih h.2]
    simp

/-- A mark that is set off ends the samples, and the byte in front of it is no part of them. -/
theorem body_mark (h : SetOff before after) :
    body before.reverse (mark ++ after) = (before.dropLast, after) := by
  have hfirst : ¬ (endsInMark (0x45 :: before.reverse) && (0x49 :: after).head?.all endsToken) = true := by
    simp [endsToken, isBlank, isDelimiter]
  have hsecond : (endsInMark (0x49 :: 0x45 :: before.reverse) && after.head?.all endsToken) = true :=
    ends_iff.mpr ⟨before, by simp [mark, Bytes.ofAscii], h⟩
  have hmark : mark ++ after = 0x45 :: 0x49 :: after := rfl
  rw [hmark, body, if_neg hfirst, body, if_pos hsecond]
  simp

/-- No mark is passed over. -/
theorem suffix_body (hwhole : done.reverse ++ bs = before ++ (mark ++ after)) (hoff : SetOff before after)
    (hlength : after.length < bs.length) : after <:+ (body done bs).2 := by
  have hafter : after <:+ done.reverse ++ bs := ⟨before ++ mark, by rw [hwhole, List.append_assoc]⟩
  fun_induction body done bs with
  | case1 => cases hlength
  | case2 done b rest hend =>
    have hrest : rest <:+ done.reverse ++ b :: rest := ⟨done.reverse ++ [b], by simp⟩
    exact List.suffix_of_suffix_length_le hafter hrest (Nat.le_of_lt_succ hlength)
  | case3 done b rest hgo ih =>
    have hsplit : (b :: done).reverse ++ rest = before ++ (mark ++ after) := by simpa using hwhole
    refine ih hsplit ?_ (by simpa using hafter)
    refine Nat.lt_of_le_of_ne (Nat.le_of_lt_succ hlength) fun hsame => hgo ?_
    rw [← List.append_assoc] at hsplit
    obtain ⟨hdone, rfl⟩ := List.append_inj' hsplit hsame.symm
    exact ends_iff.mpr ⟨before, hdone, hoff⟩

theorem scan_verbatim {v : UInt8} (hv : isBlank v = true) (hw : isBlank w = true)
    (hrest : rest.head?.all endsToken = true) (hdata : Unmarked (data ++ [w])) :
    scan (v :: (data ++ w :: (mark ++ rest))) = (data, rest) := by
  have hsplit : data ++ w :: (mark ++ rest) = (data ++ [w]) ++ (mark ++ rest) := by simp
  have hoff : SetOff (data ++ [w]) rest := ⟨by simp [hw], hrest⟩
  rw [scan, if_pos hv, hsplit, body_append (unmarked_iff.mp hdata), List.append_nil, body_mark hoff,
    List.dropLast_concat]

/-- The blank behind `ID` is no part of a mark and sets off none that is not set off without it. -/
theorem setOff_behindBlank (hwhole : bs = before ++ (mark ++ after)) (hoff : SetOff before after) :
    ∃ before', behindBlank bs = before' ++ (mark ++ after) ∧ SetOff before' after := by
  subst hwhole
  cases before with
  | nil => exact ⟨[], rfl, hoff⟩
  | cons b before =>
    by_cases hblank : isBlank b = true
    · refine ⟨before, by simp [behindBlank, hblank], ?_, hoff.behind⟩
      have hfront := hoff.front
      cases before with
      | nil => rfl
      | cons d before => rwa [List.getLast?_cons_cons] at hfront
    · exact ⟨b :: before, by simp [behindBlank, hblank], hoff⟩

theorem suffix_scan (hwhole : bs = before ++ (mark ++ after)) (hoff : SetOff before after) :
    after <:+ (scan bs).2 := by
  obtain ⟨before', hbehind, hoff'⟩ := setOff_behindBlank hwhole hoff
  have hlength : after.length < (behindBlank bs).length := by
    rw [hbehind]
    simp [mark, Bytes.ofAscii]
    omega
  rw [scan_eq]
  exact suffix_body hbehind hoff' hlength

end InlineData

open InlineData in
/-- **Samples are read verbatim**, and on any input the cursor stops at the latest behind the first mark
that is set off. -/
theorem Cursor.inlineData_spec (c : Cursor) :
    (∀ v data w rest, isBlank v = true → isBlank w = true → rest.head?.all endsToken = true →
      Unmarked (data ++ [w]) → c.rest = v :: (data ++ w :: (mark ++ rest)) →
      c.inlineData = (data, { c with rest })) ∧
    ∀ before after, c.rest = before ++ (mark ++ after) → SetOff before after →
      after <:+ c.inlineData.2.rest := by
  constructor
  · intro v data w rest hv hw hrest hdata hc
    rw [inlineData, hc, scan_verbatim hv hw hrest hdata]
  · intro before after hc hoff
    exact suffix_scan hc hoff

open InlineData in
/-- A mark inside a word is taken for samples. -/
theorem Cursor.inlineData_spec_inWord :
    let data : Bytes := [0x00, 0xFF, 0x45, 0x49, 0x78, 0x0A]
    let source : Bytes := 0x20 :: (data ++ 0x20 :: (mark ++ [0x20, 0x51]))
    Unmarked (data ++ [0x20]) ∧ SetOff (0x20 :: (data ++ [0x20])) [0x20, 0x51] ∧
      (Cursor.ofBytes source 0).inlineData = (data, ⟨source, 0, [0x20, 0x51]⟩) ∧
      [0x20, 0x51] <:+ (Cursor.ofBytes source 0).inlineData.2.rest := by
  intro data source
  have hdata : Unmarked (data ++ [0x20]) := by decide
  have hoff : SetOff (0x20 :: (data ++ [0x20])) [0x20, 0x51] := ⟨rfl, rfl⟩
  obtain ⟨hverbatim, hbound⟩ := Cursor.inlineData_spec (Cursor.ofBytes source 0)
  exact ⟨hdata, hoff, hverbatim 0x20 data 0x20 [0x20, 0x51] rfl rfl rfl hdata rfl, hbound _ _ rfl hoff⟩

end PdfScene
