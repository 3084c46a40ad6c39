import PdfScene.Lexical.Token

/-!
# Raw data between tokens

Two constructs hold bytes that are no tokens: the samples of an inline image and the body of a
stream. Their ends are marked by a word that the bytes might contain by chance, so each has its
own rule for which occurrence counts.

Room for the body of a stream is made before it is read, as much as its length asks for. A length that
asks for more than there can be ends the program, whether or not it would have been trusted. Any less is
taken to be there, however much memory a machine has.
-/

set_option autoImplicit false

namespace PdfScene

open Byte

namespace InlineData

/-- Whether bytes (latest first) end in an `EI` that stands at their start or after a blank. -/
def endsInMark (done : Bytes) : Bool :=
  match done with
  | i :: e :: before => i == 0x49 && e == 0x45 && before.head?.all isBlank
  | _ => false

/-- The samples up to an `EI` set off on both sides, less the blank before it. -/
def body (done : Bytes) : Bytes → Bytes × Bytes
  | [] => (done.reverse, [])
  | b :: rest =>
    if endsInMark (b :: done) && rest.head?.all endsToken then
      (((b :: done).drop 3).reverse, rest)
    else body (b :: done) rest

/-- The samples after an `ID`, whose one following blank is no part of them. -/
def scan (bs : Bytes) : Bytes × Bytes :=
  match bs with
  | b :: rest => if isBlank b then body [] rest else body [] bs
  | [] => ([], [])

theorem body_length_le (done bs : Bytes) : (body done bs).2.length ≤ bs.length := by
  fun_induction body done bs with
  | case1 => simp
  | case2 => simp
  | case3 _ _ _ _ ih => simp only [List.length_cons]; omega

theorem scan_length_le (bs : Bytes) : (scan bs).2.length ≤ bs.length := by
  unfold scan
  split
  · rename_i b rest
    have h1 := body_length_le [] rest
    have h2 := body_length_le [] (b :: rest)
    split <;> simp only [List.length_cons] at * <;> omega
  · simp

end InlineData

namespace StreamBody

/-- The word after a stream's body. -/
def mark : Bytes := Bytes.ofAscii "endstream"

/-- What follows a leading `b`, if there is one. -/
def dropOne (b : UInt8) (bs : Bytes) : Bytes := if bs.head? == some b then bs.tail else bs

theorem dropOne_length_le (b : UInt8) (bs : Bytes) : (dropOne b bs).length ≤ bs.length := by
  unfold dropOne
  split
  · simp
  · exact Nat.le_refl _

/-- Bytes (latest first) without the line end they end in. -/
def dropLineEnd (done : Bytes) : Bytes := dropOne 0x0D (dropOne 0x0A done)

/-- The bytes up to the first mark, less a line end before it. -/
def toMark (done : Bytes) : Bytes → Bytes × Bytes
  | [] => (done.reverse, [])
  | b :: rest =>
    if mark.reverse.isPrefixOf (b :: done) then
      ((dropLineEnd ((b :: done).drop mark.length)).reverse, rest)
    else toMark (b :: done) rest

/-- What follows the line end after the word `stream`. -/
def skipLineEnd (bs : Bytes) : Bytes :=
  dropOne 0x0A (dropOne 0x0D (bs.dropWhile (· == 0x20)))

/-- The body after the word `stream`, and what follows its mark. A length is trusted if a mark
stands behind that many bytes; otherwise the body ends at the first mark. -/
def body (length : Option Nat) (bs : Bytes) : Bytes × Bytes :=
  let bs := skipLineEnd bs
  match length with
  | some n =>
    let after := Token.skipBlanks false (bs.drop n)
    if mark.isPrefixOf after then (bs.take n, after.drop mark.length) else toMark [] bs
  | none => toMark [] bs

/-- Whether there can be room for a body of a stated length. -/
def hasRoom (length : Option Nat) : Bool := length.all fun n => n ≤ Bytes.mostRoom

/-- The body after the word `stream`, for which room is made first. -/
def scan (length : Option Nat) (bs : Bytes) : Except Panic (Bytes × Bytes) :=
  if hasRoom length then .ok (body length bs) else .error .capacityOverflow

theorem toMark_length_le (done bs : Bytes) : (toMark done bs).2.length ≤ bs.length := by
  fun_induction toMark done bs with
  | case1 => simp
  | case2 => simp
  | case3 _ _ _ _ ih => simp only [List.length_cons]; omega

theorem skipLineEnd_length_le (bs : Bytes) : (skipLineEnd bs).length ≤ bs.length :=
  Nat.le_trans (dropOne_length_le _ _)
    (Nat.le_trans (dropOne_length_le _ _) (List.dropWhile_sublist _).length_le)

theorem body_length_le (length : Option Nat) (bs : Bytes) :
    (body length bs).2.length ≤ bs.length := by
  have h1 := skipLineEnd_length_le bs
  have h2 := toMark_length_le [] (skipLineEnd bs)
  unfold body
  dsimp only
  split
  · rename_i n
    have h3 := Token.skipBlanks_length_le false ((skipLineEnd bs).drop n)
    rw [List.length_drop] at h3
    split
    · rw [List.length_drop]; omega
    · omega
  · omega

theorem scan_of_hasRoom {length : Option Nat} (h : hasRoom length = true) (bs : Bytes) :
    scan length bs = .ok (body length bs) := if_pos h

theorem scan_of_not_hasRoom {length : Option Nat} (h : hasRoom length = false) (bs : Bytes) :
    scan length bs = .error .capacityOverflow := if_neg (Bool.eq_false_iff.mp h)

theorem scan_length_le {length : Option Nat} {bs data rest : Bytes}
    (h : scan length bs = .ok (data, rest)) : rest.length ≤ bs.length := by
  unfold scan at h
  split at h
  · have hrest : (body length bs).2 = rest := congrArg Prod.snd (Except.ok.inj h)
    exact hrest ▸ body_length_le length bs
  · cases h

end StreamBody

end PdfScene
