import PdfScene.Lexical.Raw

/-!
# Bodies of streams

A body stands between the line break behind `stream` and one in front of `endstream`. Where its length
is stated it is taken by that, whatever it holds; otherwise it ends at the first mark, so it must hold
none, and no line end of its own may stand in front of the one that is dropped (`scan_body`).
-/

set_option autoImplicit false

namespace PdfScene.StreamBody

open Byte

/-- The line ends that may follow the word `stream`. -/
inductive LineBreak : Bytes → Prop where
  | lf : LineBreak [0x0A]
  | crlf : LineBreak [0x0D, 0x0A]

variable {eol eol' data rest done w : Bytes} {length : Option Nat}

theorem skipLineEnd_lineBreak (h : LineBreak eol) (bs : Bytes) : skipLineEnd (eol ++ bs) = bs := by
  cases h with
  | lf => simp [skipLineEnd, dropOne]
  | crlf => simp [skipLineEnd, dropOne]

theorem dropLineEnd_lineBreak (h : LineBreak eol) (hdata : ∀ b ∈ data.getLast?, isLineEnd b = false) :
    dropLineEnd (data ++ eol).reverse = data.reverse := by
  cases h with
  | crlf => simp [dropLineEnd, dropOne]
  | lf =>
    have hreturn : data.getLast? ≠ some 0x0D := by
      intro hlast
      have hline := hdata _ hlast
      simp [isLineEnd] at hline
    simp [dropLineEnd, dropOne, hreturn]

/-! ## The first mark -/

theorem toMark_cons {b : UInt8} (h : ¬ mark <:+ (b :: done).reverse) :
    toMark done (b :: w) = toMark (b :: done) w := by
  rw [toMark, if_neg]
  rwa [List.isPrefixOf_iff_prefix, ← List.reverse_suffix, List.reverse_reverse]

/-- Bytes without a mark are passed over. -/
theorem toMark_append (h : ¬ mark <:+: done.reverse ++ data) :
    toMark done (data ++ w) = toMark (data.reverse ++ done) w := by
  induction data generalizing done with
  | nil => rfl
  | cons b data ih =>
    have hclear : ¬ mark <:+: (b :: done).reverse ++ data := by simpa using h
    have hlast : ¬ mark <:+ (b :: done).reverse := fun hsuffix =>
      hclear (hsuffix.isInfix.trans (List.prefix_append _ _).isInfix)
    rw [List.cons_append, toMark_cons hlast, ih hclear]
    simp

/-- A mark ends in an `m`, so bytes without one are passed over as well. -/
theorem toMark_of_not_mem (h : 0x6D ∉ data) :
    toMark done (data ++ w) = toMark (data.reverse ++ done) w := by
  induction data generalizing done with
  | nil => rfl
  | cons b data ih =>
    rw [List.mem_cons, not_or] at h
    have hlast : ¬ mark <:+ (b :: done).reverse := by
      rintro ⟨front, hfront⟩
      have hbyte := congrArg List.getLast? hfront
      simp [mark, Bytes.ofAscii] at hbyte
      exact h.1 hbyte
    rw [List.cons_append, toMark_cons hlast, ih h.2]
    simp

theorem toMark_lineBreak (h : LineBreak eol) :
    toMark done (eol ++ w) = toMark (eol.reverse ++ done) w := by
  cases h <;> exact toMark_of_not_mem (by decide)

/-- A mark has no other `m`. -/
theorem toMark_mark : toMark done (mark ++ rest) = ((dropLineEnd done).reverse, rest) := by
  have hmark : mark ++ rest = Bytes.ofAscii "endstrea" ++ 0x6D :: rest := by rfl
  rw [hmark, toMark_of_not_mem (by decide), toMark, if_pos]
  · rfl
  · exact List.isPrefixOf_iff_prefix.mpr ⟨done, rfl⟩

/-! ## Bodies -/

/-- What is behind the body, from its line break on. -/
def closing (eol rest : Bytes) : Bytes := eol ++ (mark ++ rest)

theorem skipBlanks_closing (h : LineBreak eol) (rest : Bytes) :
    Token.skipBlanks false (closing eol rest) = mark ++ rest := by
  cases h <;> rfl

/-- What a body needs in order to be found: its length, or that no length leads to a mark and the
first mark is the one behind it. -/
inductive Findable (length : Option Nat) (data eol rest : Bytes) : Prop where
  | measured (h : length = some data.length)
  | marked (hlength : ∀ n, length = some n →
        ¬ mark <+: Token.skipBlanks false ((data ++ closing eol rest).drop n))
      (hclear : ¬ mark <:+: data) (hlast : ∀ b ∈ data.getLast?, isLineEnd b = false)

/-- A body that can be found is what is taken for it. -/
theorem body_eq (hopen : LineBreak eol) (hclose : LineBreak eol')
    (h : Findable length data eol' rest) :
    body length (eol ++ (data ++ closing eol' rest)) = (data, rest) := by
  have hmarked : mark <+: mark ++ rest := List.prefix_append _ _
  unfold body
  rw [skipLineEnd_lineBreak hopen]
  cases h with
  | measured h =>
    subst h
    dsimp only
    rw [List.drop_left, skipBlanks_closing hclose, if_pos (List.isPrefixOf_iff_prefix.mpr hmarked),
      List.take_left, List.drop_left]
  | marked hlength hclear hlast =>
    have hfirst : toMark [] (data ++ closing eol' rest) = (data, rest) := by
      rw [toMark_append (by simpa using hclear), closing, toMark_lineBreak hclose, toMark_mark,
        List.append_nil, ← List.reverse_append, dropLineEnd_lineBreak hclose hlast,
        List.reverse_reverse]
    cases length with
    | none => exact hfirst
    | some n =>
      dsimp only
      rw [if_neg (by rw [List.isPrefixOf_iff_prefix]; exact hlength n rfl), hfirst]

/-- **A body is recovered verbatim**, if there can be room for it, and what follows its mark comes
next. -/
theorem scan_body (hopen : LineBreak eol) (hclose : LineBreak eol')
    (h : Findable length data eol' rest) (hroom : hasRoom length = true) :
    scan length (eol ++ (data ++ closing eol' rest)) = .ok (data, rest) := by
  rw [scan_of_hasRoom hroom, body_eq hopen hclose h]

end PdfScene.StreamBody
