import PdfScene.Proofs.Font.Assignments
import PdfScene.Proofs.Lexical.TokenList

/-!
# Entries of a range section

Two codes and a text, or two codes and a list of texts, are an entry (`Range`). Codes that are in order
and not too far apart make it a proper one, and reading it gives its texts to the codes from the first
one on (`readRanges_proper`). A text has as many successors as there are codes. Of a list no more texts
count than there are codes, unless the last code is the greatest there is: nothing is behind it, so that
the end of the codes is not noticed and the list is read to its own end (`readList_greatest`).
-/

set_option autoImplicit false

namespace PdfScene.CMap

open Assignments

/-- The map in which codes stand for texts that they are given, the later ones first. -/
def insertAll (m : CMap) (pairs : List (UInt32 × String)) : CMap := ⟨m.texts.insertMany pairs⟩

@[simp]
theorem insertAll_nil (m : CMap) : m.insertAll [] = m := by
  simp [insertAll]

theorem insertAll_cons (m : CMap) (code : UInt32) (text : String) (pairs : List (UInt32 × String)) :
    m.insertAll ((code, text) :: pairs) = (m.insert code text).insertAll pairs := by
  simp [insertAll, insert, Std.HashMap.insertMany_cons]

theorem insertAll_append (m : CMap) (pairs pairs' : List (UInt32 × String)) :
    m.insertAll (pairs ++ pairs') = (m.insertAll pairs).insertAll pairs' := by
  simp [insertAll, Std.HashMap.insertMany_append]

theorem lookup?_insertAll (m : CMap) (pairs : List (UInt32 × String)) (code : UInt32) :
    (m.insertAll pairs).lookup? code = (last? pairs code).or (m.lookup? code) :=
  getElem?_insertMany m.texts pairs code

/-! ## Entries -/

/-- What the codes of a range stand for: a text and its successors, or texts one by one. -/
inductive Target where
  | run (start : Bytes)
  | list (texts : List Bytes)
  deriving DecidableEq

/-- An entry of a range section. -/
structure Range where
  low : Bytes
  high : Bytes
  target : Target
  deriving DecidableEq

namespace Range

/-- An entry as it is written. -/
def tokens (e : Range) : List Token :=
  match e.target with
  | .run start => [.hexStr e.low, .hexStr e.high, .hexStr start]
  | .list texts =>
    .hexStr e.low :: .hexStr e.high :: .arrayStart :: (texts.map .hexStr ++ [.arrayEnd])

/-- An entry in bytes. -/
def written (e : Range) : Bytes :=
  HexString.written e.low ++ HexString.written e.high ++
    match e.target with
    | .run start => HexString.written start
    | .list texts => 0x5B :: (texts.flatMap HexString.written ++ [0x5D])

theorem readAll_texts (texts : List Bytes) (rest : Bytes) :
    Token.readAll (texts.flatMap HexString.written ++ rest) =
      texts.map .hexStr ++ Token.readAll rest := by
  rw [List.map_eq_flatMap]
  exact Token.readAll_flatMap HexString.readAll_written texts rest

theorem readAll_written (e : Range) (rest : Bytes) :
    Token.readAll (e.written ++ rest) = e.tokens ++ Token.readAll rest := by
  obtain ⟨low, high, target⟩ := e
  cases target with
  | run start =>
    simp only [written, tokens, List.append_assoc, HexString.readAll_written]
    rfl
  | list texts =>
    simp only [written, tokens, List.append_assoc, List.cons_append, HexString.readAll_written,
      Token.readAll_arrayStart, readAll_texts, List.nil_append, Token.readAll_arrayEnd]

/-- The last code is not before the first, nor too far behind it. -/
def Proper (e : Range) : Prop :=
  codeOf e.low ≤ codeOf e.high ∧ codeOf e.high - codeOf e.low ≤ rangeLimit

instance : DecidablePred Proper := fun e =>
  inferInstanceAs (Decidable (codeOf e.low ≤ codeOf e.high ∧ codeOf e.high - codeOf e.low ≤ rangeLimit))

/-- How many codes there are from the first to the last. -/
def width (e : Range) : Nat := (codeOf e.high - codeOf e.low).toNat + 1

/-- The texts that an entry has for its codes. A list has no more of them than there are codes, unless
the last code is the greatest there is. -/
def texts (e : Range) : List String :=
  match e.target with
  | .run start => (List.range e.width).map fun k => String.ofList (advanceLast^[k] (Utf16.decode start))
  | .list texts => (if codeOf e.high = 0xFFFFFFFF then texts else texts.take e.width).map textOf

/-- What an entry gives to codes. -/
def pairs (e : Range) : List (UInt32 × String) := consecutive (codeOf e.low) e.texts

end Range

/-! ## Reading them -/

theorem insertRun_eq (m : CMap) (code : UInt32) (text : List Char) (count : Nat) :
    m.insertRun code text count =
      m.insertAll (consecutive code
        ((List.range count).map fun k => String.ofList (advanceLast^[k] text))) := by
  induction count generalizing m code text with
  | zero => simp [insertRun, consecutive]
  | succ count ih =>
    rw [insertRun, ih, List.range_succ_eq_map, List.map_cons, List.map_map, consecutive, insertAll_cons]
    rfl

/-- A list whose last code is the greatest is read to its end. -/
theorem readList_greatest (m : CMap) (code : UInt32) (texts : List Bytes) (rest : List Token) :
    readList m code 0xFFFFFFFF (texts.map .hexStr ++ .arrayEnd :: rest) =
      (m.insertAll (consecutive code (texts.map textOf)), rest) := by
  induction texts generalizing m code with
  | nil => simp [readList, consecutive]
  | cons text texts ih =>
    have hle : code ≤ 0xFFFFFFFF := UInt32.le_iff_toNat_le.mpr (Nat.le_of_lt_succ code.toNat_lt)
    rw [List.map_cons, List.cons_append, readList, if_pos hle, ih, List.map_cons, consecutive,
      insertAll_cons]

/-- Otherwise texts count as long as there are codes for them. -/
theorem readList_eq {last : UInt32} (hlast : last ≠ 0xFFFFFFFF) (m : CMap) (code : UInt32)
    (hcode : code.toNat ≤ last.toNat + 1) (texts : List Bytes) (rest : List Token) :
    readList m code last (texts.map .hexStr ++ .arrayEnd :: rest) =
      (m.insertAll (consecutive code ((texts.take (last.toNat + 1 - code.toNat)).map textOf)), rest) := by
  have hlt : last.toNat < 2 ^ 32 - 1 := by
    have hne : last.toNat ≠ 2 ^ 32 - 1 := fun h => hlast (UInt32.toNat_inj.mp h)
    have hlast := last.toNat_lt
    omega
  induction texts generalizing m code with
  | nil => simp [readList, consecutive]
  | cons text texts ih =>
    rw [List.map_cons, List.cons_append, readList]
    by_cases hle : code ≤ last
    · have hle' := UInt32.le_iff_toNat_le.mp hle
      have hsucc : (code + 1).toNat = code.toNat + 1 := by
        simp only [UInt32.toNat_add, UInt32.reduceToNat]
        omega
      have hroom : last.toNat + 1 - code.toNat = last.toNat + 1 - (code + 1).toNat + 1 := by omega
      rw [if_pos hle, ih _ _ (by omega), hroom, List.take_succ_cons, List.map_cons, consecutive,
        insertAll_cons]
    · have hle' := mt UInt32.le_iff_toNat_le.mpr hle
      have hroom : last.toNat + 1 - code.toNat = 0 := by omega
      rw [if_neg hle, ih _ _ hcode, hroom, List.take_zero, List.take_zero]

theorem Range.proper_iff (e : Range) : e.Proper ↔
    (codeOf e.high < codeOf e.low || rangeLimit < codeOf e.high - codeOf e.low) = false := by
  simp [Proper, UInt32.not_lt]

/-- What stands in place of the text is passed over where the codes are no range, be it a text or only
the start of a list. -/
theorem readRanges_refused {e : Range} (h : ¬ e.Proper) (m : CMap) (t : Token) (rest : List Token) :
    readRanges m (.hexStr e.low :: .hexStr e.high :: t :: rest) = readRanges m rest := by
  rw [e.proper_iff, Bool.not_eq_false] at h
  rw [readRanges.eq_def]
  dsimp only
  rw [if_pos h]

theorem readRanges_proper {e : Range} (h : e.Proper) (m : CMap) (rest : List Token) :
    readRanges m (e.tokens ++ rest) = readRanges (m.insertAll e.pairs) rest := by
  have hle := UInt32.le_iff_toNat_le.mp h.1
  have hwidth : e.width = (codeOf e.high).toNat + 1 - (codeOf e.low).toNat := by
    rw [Range.width, UInt32.toNat_sub_of_le _ _ h.1]
    omega
  have hproper := Bool.not_eq_true _ ▸ e.proper_iff.mp h
  obtain ⟨low, high, target⟩ := e
  cases target with
  | run start =>
    rw [Range.tokens, readRanges.eq_def]
    dsimp only [List.cons_append, List.nil_append]
    rw [if_neg hproper, insertRun_eq]
    rfl
  | list texts =>
    rw [Range.tokens, readRanges.eq_def]
    dsimp only [List.cons_append, List.nil_append]
    rw [if_neg hproper, List.append_assoc, List.singleton_append]
    dsimp only at hle hwidth
    by_cases hgreatest : codeOf high = 0xFFFFFFFF
    · rw [hgreatest, readList_greatest]
      simp [Range.pairs, Range.texts, hgreatest]
    · rw [readList_eq hgreatest _ _ (by omega)]
      simp [Range.pairs, Range.texts, hgreatest, hwidth]

theorem readRanges_of_proper {es : List Range} (h : ∀ e ∈ es, e.Proper) (m : CMap) :
    readRanges m (es.flatMap Range.tokens) = m.insertAll (es.flatMap Range.pairs) := by
  induction es generalizing m with
  | nil => simp [readRanges]
  | cons e es ih =>
    obtain ⟨he, hes⟩ := List.forall_mem_cons.mp h
    rw [List.flatMap_cons, readRanges_proper he, ih hes, List.flatMap_cons, insertAll_append]

end PdfScene.CMap
