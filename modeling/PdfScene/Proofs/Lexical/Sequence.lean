import Mathlib
import PdfScene.Proofs.Lexical.LineFeed

/-!
# The tokens of joined content

`Token.sequence` is all that a piece of content is cut into, faults included. Content comes in pieces
joined by line feeds, and what a piece is cut into should not depend on the pieces around it. It does
not where every token of the first piece ends at the line feed, and by `scanFrom_breaks` that is so but
for open strings and a sign without a digit.

Such a sign is where joining goes wrong. Alone it is a zero; but since line ends may follow a sign, it
takes over the line feed and the number that the next piece starts with, and the zero is lost.
-/

set_option autoImplicit false

namespace PdfScene

open Byte

namespace Numeral

/-- A sign goes on behind line ends. -/
theorem scan_bareSign_lineFeed {s : Bytes} (h : (sign s).2.all isLineEnd = true) (b : Bytes) :
    scan (s ++ 0x0A :: b) = scanDigits (sign s).1 (point (b.dropWhile isLineEnd)).1
      (point (b.dropWhile isLineEnd)).2 := by
  rw [scan, sign_breaks]
  dsimp only
  rw [dropLineEnds_lineEnds h]
  rfl

/-- A digit or a point stands behind no sign. -/
theorem scan_unsigned {c : UInt8} {rest : Bytes} (h : (isDigit c || c == 0x2E) = true) :
    scan (c :: rest) = scanDigits false (point (c :: rest)).1 (point (c :: rest)).2 := by
  have hplain (b : UInt8) (hb : (isDigit b || b == 0x2E) = false) : (c == b) = false :=
    ne_of_class (p := fun c => isDigit c || c == 0x2E) h hb
  have hline : isLineEnd c = false := by
    rw [isLineEnd, hplain 0x0D rfl, hplain 0x0A rfl]
    rfl
  simp only [scan, sign, hplain 0x2D rfl, hplain 0x2B rfl, Bool.false_eq_true, if_false,
    List.dropWhile_cons, hline]

/-- Whether a number is negative has no bearing on where it ends. -/
theorem scanDigits_rest (negative negative' fraction : Bool) (s : Bytes) :
    (scanDigits negative fraction s).2 = (scanDigits negative' fraction s).2 := by
  unfold scanDigits
  split
  · rfl
  dsimp only
  split
  · split <;> rfl
  · rfl

end Numeral

namespace Token

/-! ## Cutting content into tokens -/

/-- The tokens and faults of a piece of input up to its end, in order. -/
def sequence (bs : Bytes) : List (Except TokenFault Token) :=
  match _h : scan bs with
  | (.error fault, rest) => .error fault :: sequence rest
  | (.ok t, rest) => if _ht : t matches .eof then [] else .ok t :: sequence rest
termination_by bs.length
decreasing_by
  · exact scan_progress _h nofun
  · exact scan_progress _h (by rintro ⟨⟩; exact _ht rfl)

/-- What is left behind a token or fault. -/
theorem scanFrom_rest_length {bs rest : Bytes} {c : UInt8} (h : skipBlanks false bs = c :: rest) :
    (scanFrom c rest).2.length < bs.length := by
  have hstart := skipBlanks_eq_cons h
  have hless := scanFrom_length_lt c rest hstart.1 hstart.2
  have hskip := skipBlanks_length_le false bs
  rw [h] at hskip
  exact Nat.lt_of_lt_of_le hless hskip

/-- For each token or fault of a piece of input, the input from its first byte on. -/
def starts (bs : Bytes) : List Bytes :=
  match _h : skipBlanks false bs with
  | [] => []
  | c :: rest => (c :: rest) :: starts (scanFrom c rest).2
termination_by bs.length
decreasing_by exact scanFrom_rest_length _h

/-- The input ends inside a literal string. -/
def endsInString (bs : Bytes) : Bool := (starts bs).any opensString

/-- The input ends inside a hex string. -/
def endsInHexString (bs : Bytes) : Bool := (starts bs).any opensHexString

/-- The input ends in a sign without a digit, with line ends at most behind it. -/
def endsInSign (bs : Bytes) : Bool := (starts bs).any isBareSign

/-- The input starts, behind line ends, with a byte that goes on with a number whose sign has been
read. -/
def continuesNumeral (bs : Bytes) : Bool :=
  (bs.dropWhile isLineEnd).head?.any fun c => isDigit c || c == 0x2E

variable {bs rest : Bytes} {c : UInt8}

theorem sequence_nil (h : skipBlanks false bs = []) : sequence bs = [] := by
  have hscan := scan_nil h
  rw [sequence]
  split
  · rename_i hs
    rw [hscan] at hs
    cases hs
  · rename_i hs
    rw [hscan] at hs
    cases hs
    rfl

@[simp] theorem sequence_empty : sequence [] = [] := sequence_nil rfl

theorem sequence_cons (h : skipBlanks false bs = c :: rest) :
    sequence bs = (scanFrom c rest).1 :: sequence (scanFrom c rest).2 := by
  have hscan := scan_cons h
  have hmore := scanFrom_ne_eof c rest
  rw [sequence]
  split
  · rename_i hs
    rw [hscan.symm.trans hs]
  · rename_i t _ hs
    rw [hscan.symm.trans hs] at hmore ⊢
    cases t <;> first | exact absurd rfl hmore | rfl

theorem starts_nil (h : skipBlanks false bs = []) : starts bs = [] := by
  rw [starts]
  split
  · rfl
  · rename_i hs
    rw [h] at hs
    cases hs

theorem starts_cons (h : skipBlanks false bs = c :: rest) :
    starts bs = (c :: rest) :: starts (scanFrom c rest).2 := by
  rw [starts]
  split
  · rename_i hs
    rw [h] at hs
    cases hs
  · rename_i hs
    rw [h] at hs
    cases hs
    rfl

/-- Line ends in front of input are blank. -/
theorem skipBlanks_dropLineEnds (bs : Bytes) :
    skipBlanks false (bs.dropWhile isLineEnd) = skipBlanks false bs := by
  induction bs with
  | nil => rfl
  | cons c bs ih =>
    rw [List.dropWhile_cons]
    split
    · rename_i hline
      rw [ih]
      rw [isLineEnd, Bool.or_eq_true, beq_iff_eq, beq_iff_eq] at hline
      rcases hline with rfl | rfl <;> rfl
    · rfl

theorem sequence_congr {bs' : Bytes} (h : skipBlanks false bs = skipBlanks false bs') :
    sequence bs = sequence bs' := by
  cases hs : skipBlanks false bs with
  | nil => rw [sequence_nil hs, sequence_nil (h.symm.trans hs)]
  | cons c rest => rw [sequence_cons hs, sequence_cons (h.symm.trans hs)]

/-! ## A sign in front of the line feed -/

/-- What opens a numeral is no blank, so a number is the first token. -/
theorem sequence_numeral (h : opensNumeral c = true) (rest : Bytes) :
    sequence (c :: rest) =
      .ok (.num (Numeral.scan (c :: rest)).1) :: sequence (Numeral.scan (c :: rest)).2 := by
  rw [sequence_cons (skipBlanks_numeral h rest), scanFrom, if_pos h]

/-- A sign without a digit is a zero, and nothing follows it. -/
theorem sequence_bareSign (hs : skipBlanks false bs = c :: rest)
    (h : isBareSign (c :: rest) = true) : sequence bs = [.ok (.num 0)] := by
  have hsign := h
  rw [isBareSign, Bool.and_eq_true] at hsign
  rw [sequence_cons hs, scanFrom, if_pos (opensNumeral_of_isBareSign h),
    Numeral.scan_bareSign hsign.2, sequence_empty]

/-- In front of a line feed it looks for its number behind that. -/
theorem sequence_bareSign_lineFeed (hs : skipBlanks false bs = c :: rest)
    (h : isBareSign (c :: rest) = true) (b : Bytes) :
    sequence (bs ++ 0x0A :: b) =
      .ok (.num (Numeral.scan (c :: rest ++ 0x0A :: b)).1) ::
        sequence (Numeral.scan (c :: rest ++ 0x0A :: b)).2 := by
  rw [sequence_cons (skipBlanks_lineFeed_cons hs b), scanFrom,
    if_pos (opensNumeral_of_isBareSign h), List.cons_append]

/-- If no number comes it is zero. -/
theorem scan_bareSign_of_not_continues (h : isBareSign (c :: rest) = true) {b : Bytes}
    (hb : continuesNumeral b = false) :
    Numeral.scan (c :: rest ++ 0x0A :: b) = (0, b.dropWhile isLineEnd) := by
  rw [isBareSign, Bool.and_eq_true] at h
  rw [Numeral.scan_bareSign_lineFeed h.2]
  rw [continuesNumeral] at hb
  cases hnext : b.dropWhile isLineEnd with
  | nil => rfl
  | cons d tail =>
    rw [hnext, List.head?_cons, Option.any_some, Bool.or_eq_false_iff] at hb
    simp only [Numeral.point, Numeral.scanDigits, hb.1, hb.2, Bool.false_eq_true, if_false]

/-- The number that comes is read as it would be without the sign, but for its value. -/
theorem sequence_of_continues (h : isBareSign (c :: rest) = true) {b : Bytes}
    (hb : continuesNumeral b = true) :
    ∃ x, sequence b = .ok (.num x) :: sequence (Numeral.scan (c :: rest ++ 0x0A :: b)).2 := by
  rw [isBareSign, Bool.and_eq_true] at h
  rw [Numeral.scan_bareSign_lineFeed h.2, ← sequence_congr (skipBlanks_dropLineEnds b)]
  rw [continuesNumeral] at hb
  cases hnext : b.dropWhile isLineEnd with
  | nil =>
    rw [hnext] at hb
    cases hb
  | cons d tail =>
    rw [hnext, List.head?_cons, Option.any_some] at hb
    have hopens : opensNumeral d = true := by
      rw [Bool.or_eq_true] at hb
      rcases hb with hb | hb <;> simp only [opensNumeral, hb, Bool.or_true, Bool.true_or]
    refine ⟨(Numeral.scan (d :: tail)).1, ?_⟩
    rw [sequence_numeral hopens, Numeral.scan_unsigned hb,
      Numeral.scanDigits_rest false (Numeral.sign (c :: rest)).1]

/-! ## Joining content -/

/-- The first token of content in front of a line feed, if it does not run into that. -/
theorem sequence_breaks {a : Bytes} (hs : skipBlanks false a = c :: rest)
    (hstring : opensString (c :: rest) = false) (hhex : opensHexString (c :: rest) = false)
    (hsign : isBareSign (c :: rest) = false) (b : Bytes) :
    sequence (a ++ 0x0A :: b) =
      (scanFrom c rest).1 :: sequence ((scanFrom c rest).2 ++ 0x0A :: b) := by
  rw [sequence_cons (skipBlanks_lineFeed_cons hs b), scanFrom_breaks hstring hhex hsign]

/-- Where no sign meets a number, both pieces are cut as they are alone. -/
theorem sequence_lineFeed {a b : Bytes} (hstring : endsInString a = false)
    (hhex : endsInHexString a = false)
    (hsign : endsInSign a = false ∨ continuesNumeral b = false) :
    sequence (a ++ 0x0A :: b) = sequence a ++ sequence b := by
  induction hlength : a.length using Nat.strongRecOn generalizing a with
  | ind n ih =>
  cases hs : skipBlanks false a with
  | nil =>
    rw [sequence_congr (skipBlanks_lineFeed_nil hs b), sequence_nil hs, List.nil_append]
  | cons c rest =>
    rw [endsInString, starts_cons hs, List.any_cons, Bool.or_eq_false_iff] at hstring
    rw [endsInHexString, starts_cons hs, List.any_cons, Bool.or_eq_false_iff] at hhex
    rw [endsInSign, starts_cons hs, List.any_cons, Bool.or_eq_false_iff] at hsign
    cases hbare : isBareSign (c :: rest) with
    | false =>
      have hrest := ih _ (hlength ▸ scanFrom_rest_length hs) hstring.2 hhex.2
        (hsign.imp_left And.right) rfl
      rw [sequence_breaks hs hstring.1 hhex.1 hbare, hrest, sequence_cons hs, List.cons_append]
    | true =>
      have hb : continuesNumeral b = false :=
        hsign.resolve_left fun h => by rw [hbare] at h; cases h.1
      rw [sequence_bareSign_lineFeed hs hbare, scan_bareSign_of_not_continues hbare hb,
        sequence_bareSign hs hbare, sequence_congr (skipBlanks_dropLineEnds b)]
      rfl

/-- Where a sign meets a number, the zero that the sign is alone is lost: `x` is the number as it
reads without the sign, and `y` with it. -/
theorem sequence_joined {a b : Bytes} (hstring : endsInString a = false)
    (hhex : endsInHexString a = false) (hsign : endsInSign a = true)
    (hb : continuesNumeral b = true) :
    ∃ before after x y, sequence a = before ++ [.ok (.num 0)] ∧
      sequence b = .ok (.num x) :: after ∧
      sequence (a ++ 0x0A :: b) = before ++ .ok (.num y) :: after := by
  induction hlength : a.length using Nat.strongRecOn generalizing a with
  | ind n ih =>
  cases hs : skipBlanks false a with
  | nil =>
    rw [endsInSign, starts_nil hs] at hsign
    cases hsign
  | cons c rest =>
    rw [endsInString, starts_cons hs, List.any_cons, Bool.or_eq_false_iff] at hstring
    rw [endsInHexString, starts_cons hs, List.any_cons, Bool.or_eq_false_iff] at hhex
    rw [endsInSign, starts_cons hs, List.any_cons, Bool.or_eq_true] at hsign
    cases hbare : isBareSign (c :: rest) with
    | false =>
      have hlater : endsInSign (scanFrom c rest).2 = true :=
        hsign.resolve_left fun h => by rw [hbare] at h; cases h
      obtain ⟨before, after, x, y, ha, hafter, hjoined⟩ :=
        ih _ (hlength ▸ scanFrom_rest_length hs) hstring.2 hhex.2 hlater rfl
      refine ⟨(scanFrom c rest).1 :: before, after, x, y, ?_, hafter, ?_⟩
      · rw [sequence_cons hs, ha, List.cons_append]
      · rw [sequence_breaks hs hstring.1 hhex.1 hbare, hjoined, List.cons_append]
    | true =>
      obtain ⟨x, hx⟩ := sequence_of_continues hbare hb
      exact ⟨[], _, x, _, sequence_bareSign hs hbare, hx, sequence_bareSign_lineFeed hs hbare b⟩

/-- **Pieces of content are cut apart at the line feed between them, but for a sign that meets a
number.** The first piece must not end inside a string. Samples of inline images do not come into
it, as they are no tokens. -/
theorem sequence_lineFeed_iff {a b : Bytes} (hstring : endsInString a = false)
    (hhex : endsInHexString a = false) :
    sequence (a ++ 0x0A :: b) = sequence a ++ sequence b ↔
      ¬(endsInSign a = true ∧ continuesNumeral b = true) := by
  constructor
  · rintro heq ⟨hsign, hb⟩
    obtain ⟨before, after, x, y, ha, hafter, hjoined⟩ := sequence_joined hstring hhex hsign hb
    rw [hjoined, ha, hafter] at heq
    have hlengths := congrArg List.length heq
    simp only [List.length_append, List.length_cons, List.length_nil] at hlengths
    omega
  · intro hapart
    refine sequence_lineFeed hstring hhex ?_
    rwa [Decidable.not_and_iff_or_not, Bool.not_eq_true, Bool.not_eq_true] at hapart

/-- A minus and a five on the next line are one token, not two. -/
theorem sequence_minus_five :
    sequence (Bytes.ofAscii "-" ++ 0x0A :: Bytes.ofAscii "5") ≠
      sequence (Bytes.ofAscii "-") ++ sequence (Bytes.ofAscii "5") := by
  intro heq
  exact (sequence_lineFeed_iff (by cbv) (by cbv)).mp heq ⟨by cbv, by cbv⟩

end Token

end PdfScene
