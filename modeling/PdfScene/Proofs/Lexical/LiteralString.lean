import Mathlib
import PdfScene.Lexical.Cursor

/-!
# Literal strings and how they are spelled

Between its parentheses a literal string spells each of its bytes in one of several ways, and some of
what stands there spells none (`LiteralString.Spells`). Whatever the spelling, the reader finds the bytes
and the parenthesis that closes them (`Cursor.next_literalString`).

What an escape takes in can depend on the byte behind it: three octal digits are the most, and a line
feed belongs to a return in front of it. A closing parenthesis is neither, so the conditions are on the
text alone and hold wherever it is closed.
-/

set_option autoImplicit false

namespace PdfScene

open Byte

namespace LiteralString

/-- The letters that stand for a control character behind a backslash, each with its character. -/
def controls : List (UInt8 × UInt8) :=
  [(0x6E, 0x0A), (0x72, 0x0D), (0x74, 0x09), (0x62, 0x08), (0x66, 0x0C)]

/-- The line ends, which count for nothing behind a backslash. -/
def lineEnds : List Bytes := [[0x0D], [0x0A], [0x0D, 0x0A]]

/-- The number that octal digits give behind the digits of `n`. -/
def octalFrom (n : Nat) (digits : Bytes) : Nat := digits.foldl (fun n d => n * 8 + digitValue d) n

/-- The text between two parentheses spells the bytes of a string. -/
inductive Spells : Bytes → Bytes → Prop where
  | nil : Spells [] []
  | plain {b : UInt8} {text bytes : Bytes} (hopen : b ≠ 0x28) (hclose : b ≠ 0x29) (hescape : b ≠ 0x5C)
      (h : Spells text bytes) : Spells (b :: text) (b :: bytes)
  | nested {inner innerBytes text bytes : Bytes} (hinner : Spells inner innerBytes)
      (h : Spells text bytes) :
      Spells (0x28 :: (inner ++ 0x29 :: text)) (0x28 :: (innerBytes ++ 0x29 :: bytes))
  | control {e b : UInt8} {text bytes : Bytes} (he : (e, b) ∈ controls) (h : Spells text bytes) :
      Spells (0x5C :: e :: text) (b :: bytes)
  | quoted {e : UInt8} {text bytes : Bytes} (hcontrol : e ∉ controls.map Prod.fst)
      (hoctal : isOctal e = false) (hline : isLineEnd e = false) (h : Spells text bytes) :
      Spells (0x5C :: e :: text) (e :: bytes)
  | octal {digits text bytes : Bytes} (hdigits : ∀ d ∈ digits, isOctal d = true) (hsome : digits ≠ [])
      (hmost : digits.length ≤ 3) (hnext : digits.length < 3 → ∀ d ∈ text.head?, isOctal d = false)
      (h : Spells text bytes) :
      Spells (0x5C :: (digits ++ text)) (UInt8.ofNat (octalFrom 0 digits) :: bytes)
  | continued {lineEnd text bytes : Bytes} (hline : lineEnd ∈ lineEnds)
      (hreturn : lineEnd = [0x0D] → ∀ d ∈ text.head?, d ≠ 0x0A) (h : Spells text bytes) :
      Spells (0x5C :: (lineEnd ++ text)) bytes

variable {text bytes rest digits : Bytes} {e b : UInt8}

/-! ## Escapes -/

theorem escape_control (he : (e, b) ∈ controls) (rest : Bytes) : escape (e :: rest) = ([b], rest) := by
  simp only [controls, List.mem_cons, Prod.mk.injEq, List.not_mem_nil, or_false] at he
  rcases he with ⟨rfl, rfl⟩ | ⟨rfl, rfl⟩ | ⟨rfl, rfl⟩ | ⟨rfl, rfl⟩ | ⟨rfl, rfl⟩ <;> rfl

theorem escape_quoted (hcontrol : e ∉ controls.map Prod.fst) (hoctal : isOctal e = false)
    (hline : isLineEnd e = false) (rest : Bytes) : escape (e :: rest) = ([e], rest) := by
  have hescaped : escaped e = e := by
    simp only [controls, List.map_cons, List.map_nil, List.mem_cons, List.not_mem_nil, or_false,
      not_or] at hcontrol
    simp [escaped, hcontrol]
  simp only [isLineEnd, Bool.or_eq_false_iff] at hline
  simp [escape, hoctal, hline.1, hline.2, hescaped]

theorem octal_digits {room value : Nat} (hdigits : ∀ d ∈ digits, isOctal d = true)
    (hmost : digits.length ≤ room)
    (hnext : digits.length < room → ∀ d ∈ rest.head?, isOctal d = false) :
    octal room value (digits ++ rest) = (octalFrom value digits, rest) := by
  induction digits generalizing room value with
  | nil =>
    cases room with
    | zero => simp [octal, octalFrom]
    | succ room =>
      cases rest with
      | nil => rfl
      | cons d rest =>
        have hd : isOctal d = false := hnext room.succ_pos d rfl
        simp [octal, hd, octalFrom]
  | cons d digits ih =>
    rw [List.forall_mem_cons] at hdigits
    rw [List.length_cons] at hmost hnext
    obtain ⟨room, rfl⟩ := Nat.exists_eq_add_of_lt (Nat.lt_of_lt_of_le digits.length.succ_pos hmost)
    rw [Nat.zero_add] at hmost hnext ⊢
    rw [List.cons_append, octal, if_pos hdigits.1]
    exact ih hdigits.2 (by omega) fun hless => hnext (by omega)

theorem escape_octal (hdigits : ∀ d ∈ digits, isOctal d = true) (hsome : digits ≠ [])
    (hmost : digits.length ≤ 3) (hnext : digits.length < 3 → ∀ d ∈ rest.head?, isOctal d = false) :
    escape (digits ++ rest) = ([UInt8.ofNat (octalFrom 0 digits)], rest) := by
  obtain ⟨d, digits, rfl⟩ := List.exists_cons_of_ne_nil hsome
  rw [List.forall_mem_cons] at hdigits
  rw [List.length_cons] at hmost hnext
  have hread : octal 2 (digitValue d) (digits ++ rest) = (octalFrom (digitValue d) digits, rest) :=
    octal_digits hdigits.2 (by omega) fun hless => hnext (by omega)
  simp [escape, hdigits.1, hread, octalFrom]

theorem escape_lineEnd {lineEnd : Bytes} (hline : lineEnd ∈ lineEnds)
    (hreturn : lineEnd = [0x0D] → ∀ d ∈ rest.head?, d ≠ 0x0A) : escape (lineEnd ++ rest) = ([], rest) := by
  simp only [lineEnds, List.mem_cons, List.not_mem_nil, or_false] at hline
  rcases hline with rfl | rfl | rfl
  · cases rest with
    | nil => rfl
    | cons d rest =>
      have hd : d ≠ 0x0A := hreturn rfl d rfl
      simp [escape, isOctal, hd]
  · rfl
  · rfl

/-! ## Strings -/

/-- What holds of the byte behind a text holds where the text is closed. -/
theorem forall_head?_closed {P : UInt8 → Prop} (h : ∀ d ∈ text.head?, P d) (hclose : P 0x29)
    (rest : Bytes) : ∀ d ∈ (text ++ 0x29 :: rest).head?, P d := by
  cases text with
  | nil => simpa using hclose
  | cons b text => simpa using h

theorem body_escape (depth : Nat) (done text : Bytes) :
    body depth done (0x5C :: text) = body depth ((escape text).1.reverse ++ done) (escape text).2 := by
  rw [body, if_neg (by decide), if_neg (by decide), if_pos (by decide)]

/-- The text of a string is read up to the parenthesis that closes it, at any depth. -/
theorem Spells.body_eq (h : Spells text bytes) {depth : Nat} (hdepth : 0 < depth) (done rest : Bytes) :
    body depth done (text ++ 0x29 :: rest) = body depth (bytes.reverse ++ done) (0x29 :: rest) := by
  induction h generalizing depth done rest with
  | nil => rfl
  | plain hopen hclose hescape _ ih =>
    rw [List.cons_append, body, if_neg (by simpa using hopen), if_neg (by simpa using hclose),
      if_neg (by simpa using hescape), ih hdepth]
    simp
  | @nested inner innerBytes text bytes _ _ ihinner ih =>
    have hsplit : 0x28 :: (inner ++ 0x29 :: text) ++ 0x29 :: rest =
        0x28 :: (inner ++ 0x29 :: (text ++ 0x29 :: rest)) := by simp
    rw [hsplit, body, if_pos (by decide), ihinner (Nat.succ_pos depth), body, if_neg (by decide),
      if_pos (by decide), if_neg (by omega), Nat.succ_sub_one, ih hdepth]
    simp
  | control he _ ih =>
    rw [List.cons_append, body_escape, List.cons_append, escape_control he, ih hdepth]
    simp
  | quoted hcontrol hoctal hline _ ih =>
    rw [List.cons_append, body_escape, List.cons_append, escape_quoted hcontrol hoctal hline, ih hdepth]
    simp
  | octal hdigits hsome hmost hnext _ ih =>
    have hclosed := fun hless => forall_head?_closed (hnext hless) (by decide) rest
    rw [List.cons_append, body_escape, List.append_assoc, escape_octal hdigits hsome hmost hclosed,
      ih hdepth]
    simp
  | continued hline hreturn _ ih =>
    have hclosed := fun heq => forall_head?_closed (hreturn heq) (by decide) rest
    rw [List.cons_append, body_escape, List.append_assoc, escape_lineEnd hline hclosed, ih hdepth]
    simp

theorem Spells.scan_eq (h : Spells text bytes) (rest : Bytes) :
    scan (text ++ 0x29 :: rest) = (bytes, rest) := by
  rw [scan, h.body_eq Nat.one_pos, body, if_neg (by decide), if_pos (by decide), if_pos (Nat.le_refl 1)]
  simp

end LiteralString

variable {text bytes rest : Bytes}

/-- **Every spelling of a literal string is read as its bytes**, and the cursor stops behind the
parenthesis that closes it. -/
theorem Cursor.next_literalString {c : Cursor} (h : LiteralString.Spells text bytes)
    (hc : c.rest = 0x28 :: (text ++ 0x29 :: rest)) : c.next = (.ok (.str bytes), { c with rest }) := by
  have hscan : Token.scan (0x28 :: (text ++ 0x29 :: rest)) =
      (.ok (.str (LiteralString.scan (text ++ 0x29 :: rest)).1),
        (LiteralString.scan (text ++ 0x29 :: rest)).2) := rfl
  apply Cursor.next_of_scan
  rw [hc, hscan, h.scan_eq]

open LiteralString in
/-- A closing parenthesis that is quoted inside a pair, octal numbers of three digits and of one, and a
broken line. -/
theorem Cursor.next_literalString_nested :
    let text : Bytes := Bytes.ofAscii "(\\))\\n\\0053\\777\\" ++ [0x0D, 0x0A] ++ Bytes.ofAscii "\\7"
    Spells text [0x28, 0x29, 0x29, 0x0A, 0x05, 0x33, 0xFF, 0x07] ∧
      (Cursor.ofBytes (0x28 :: (text ++ [0x29, 0x37])) 0).next =
        (.ok (.str [0x28, 0x29, 0x29, 0x0A, 0x05, 0x33, 0xFF, 0x07]),
          ⟨0x28 :: (text ++ [0x29, 0x37]), 0, [0x37]⟩) := by
  intro text
  have hspells : Spells text [0x28, 0x29, 0x29, 0x0A, 0x05, 0x33, 0xFF, 0x07] := by
    refine @Spells.nested [0x5C, 0x29] [0x29] _ _ ?_ ?_
    · exact .quoted (by decide) rfl rfl .nil
    refine .control (by decide) ?_
    refine @Spells.octal [0x30, 0x30, 0x35] _ _ (by simp [isOctal]) (by simp) (by simp) (by simp) ?_
    refine .plain (by decide) (by decide) (by decide) ?_
    refine @Spells.octal [0x37, 0x37, 0x37] _ _ (by simp [isOctal]) (by simp) (by simp) (by simp) ?_
    refine @Spells.continued [0x0D, 0x0A] _ _ (by decide) (by decide) ?_
    exact @Spells.octal [0x37] _ _ (by simp [isOctal]) (by simp) (by simp) (by simp) .nil
  exact ⟨hspells, Cursor.next_literalString hspells rfl⟩

end PdfScene
