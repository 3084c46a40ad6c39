import PdfScene.Lexical.Byte
import PdfScene.Text.Utf8

/-!
# Names

A name follows a slash and runs up to the next blank or delimiter. A number sign with two hex
digits after it spells one byte; any other number sign stands for itself. The bytes are read as
UTF-8.
-/

set_option autoImplicit false

namespace PdfScene.Name

open Byte

/-- The byte spelled after a number sign, and the rest. -/
def spelled? : Bytes → Option (UInt8 × Bytes)
  | a :: b :: rest =>
    match hexValue? a, hexValue? b with
    | some high, some low => some (high <<< 4 ||| low, rest)
    | _, _ => none
  | _ => none

theorem length_of_spelled? {bs rest : Bytes} {b : UInt8} (h : spelled? bs = some (b, rest)) :
    rest.length < bs.length := by
  unfold spelled? at h
  split at h
  · split at h
    · simp only [Option.some.injEq, Prod.mk.injEq] at h
      simp only [← h.2, List.length_cons]; omega
    · simp at h
  · simp at h

/-- The bytes of the name whose slash has just been read, after `done` (latest first). -/
def body (done : Bytes) (bs : Bytes) : Bytes × Bytes :=
  match bs with
  | [] => (done.reverse, [])
  | c :: rest =>
    if endsToken c then (done.reverse, c :: rest)
    else if c == 0x23 then
      match _h : spelled? rest with
      | some (b, rest') => body (b :: done) rest'
      | none => body (c :: done) rest
    else body (c :: done) rest
termination_by bs.length
decreasing_by
  · exact Nat.lt_succ_of_lt (length_of_spelled? _h)
  · exact Nat.lt_succ_self _
  · exact Nat.lt_succ_self _

/-- The name and what follows it. -/
def scan (bs : Bytes) : String × Bytes :=
  let (name, rest) := body [] bs
  (Utf8.decode name, rest)

theorem body_length_le (done bs : Bytes) : (body done bs).2.length ≤ bs.length := by
  fun_induction body done bs with
  | case1 => simp
  | case2 => simp
  | case3 _ _ _ _ _ _ _ h ih =>
    have := length_of_spelled? h
    simp only [List.length_cons]; omega
  | case4 _ _ _ _ _ _ ih => simp only [List.length_cons]; omega
  | case5 _ _ _ _ _ ih => simp only [List.length_cons]; omega

end PdfScene.Name
