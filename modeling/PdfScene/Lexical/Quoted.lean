import PdfScene.Lexical.Byte

/-!
# Literal and hex strings

A literal string stands between parentheses. Balanced parentheses inside belong to it, and a
backslash spells what could not stand there: a control character, a parenthesis, a byte in octal,
or a line end that counts for nothing. A hex string stands between angle brackets, two digits to a
byte; what is no hex digit is skipped, and a last lone digit is the high half of a byte.

Either kind may be cut off by the end of the input and then holds what was read.
-/

set_option autoImplicit false

namespace PdfScene

open Byte

namespace LiteralString

/-- The byte that a backslash before `b` stands for, where it stands for one byte. -/
def escaped (b : UInt8) : UInt8 :=
  if b == 0x6E then 0x0A
  else if b == 0x72 then 0x0D
  else if b == 0x74 then 0x09
  else if b == 0x62 then 0x08
  else if b == 0x66 then 0x0C
  else b

/-- Up to `room` more octal digits of a value that starts with `value`. -/
def octal (room value : Nat) (bs : Bytes) : Nat × Bytes :=
  match room, bs with
  | room + 1, d :: rest =>
    if isOctal d then octal room (value * 8 + digitValue d) rest else (value, bs)
  | _, _ => (value, bs)

theorem octal_length_le (room value : Nat) (bs : Bytes) :
    (octal room value bs).2.length ≤ bs.length := by
  fun_induction octal room value bs with
  | case1 _ _ _ _ _ ih => exact Nat.le_succ_of_le ih
  | case2 => exact Nat.le_refl _
  | case3 => exact Nat.le_refl _

/-- What follows a backslash: the bytes it contributes and the rest. -/
def escape : Bytes → Bytes × Bytes
  | [] => ([], [])
  | e :: rest =>
    if isOctal e then
      let (value, rest) := octal 2 (digitValue e) rest
      ([UInt8.ofNat value], rest)
    else if e == 0x0D then
      match rest with
      | f :: rest' => ([], if f == 0x0A then rest' else rest)
      | [] => ([], [])
    else if e == 0x0A then ([], rest)
    else ([escaped e], rest)

theorem escape_length_le (bs : Bytes) : (escape bs).2.length ≤ bs.length := by
  unfold escape
  split
  · exact Nat.le_refl _
  · rename_i e rest
    split
    · exact Nat.le_succ_of_le (octal_length_le _ _ _)
    · split
      · split
        · split
          · exact Nat.le_succ_of_le (Nat.le_succ _)
          · exact Nat.le_succ _
        · simp
      · split <;> simp

/-- The string that is open at nesting `depth`, after the bytes `done` (latest first). -/
def body (depth : Nat) (done : Bytes) (bs : Bytes) : Bytes × Bytes :=
  match bs with
  | [] => (done.reverse, [])
  | c :: rest =>
    if c == 0x28 then body (depth + 1) (c :: done) rest
    else if c == 0x29 then
      if depth ≤ 1 then (done.reverse, rest) else body (depth - 1) (c :: done) rest
    else if c == 0x5C then
      body depth ((escape rest).1.reverse ++ done) (escape rest).2
    else body depth (c :: done) rest
termination_by bs.length
decreasing_by
  all_goals
    have := escape_length_le rest
    simp only [List.length_cons]
    omega

/-- The string whose opening parenthesis has just been read. -/
def scan (bs : Bytes) : Bytes × Bytes := body 1 [] bs

theorem body_length_le (depth : Nat) (done bs : Bytes) :
    (body depth done bs).2.length ≤ bs.length := by
  fun_induction body depth done bs with
  | case1 => simp
  | case2 _ _ _ _ _ ih => simp only [List.length_cons]; omega
  | case3 => simp
  | case4 _ _ _ _ _ _ _ ih => simp only [List.length_cons]; omega
  | case5 _ _ _ rest _ _ _ ih =>
    have := escape_length_le rest
    simp only [List.length_cons]; omega
  | case6 _ _ _ _ _ _ _ ih => simp only [List.length_cons]; omega

end LiteralString

namespace HexString

/-- The digits of a hex string, with a first digit `high` still waiting for its second. -/
def body (high : Option UInt8) (done : Bytes) : Bytes → Bytes × Bytes
  | [] => ((flush high done).reverse, [])
  | c :: rest =>
    if c == 0x3E then ((flush high done).reverse, rest)
    else
      match hexValue? c, high with
      | some low, some h => body none ((h <<< 4 ||| low) :: done) rest
      | some digit, none => body (some digit) done rest
      | none, high => body high done rest
where
  /-- A lone digit is the high half of a last byte. -/
  flush (high : Option UInt8) (done : Bytes) : Bytes :=
    match high with
    | some h => (h <<< 4) :: done
    | none => done

/-- The string whose opening angle bracket has just been read. -/
def scan (bs : Bytes) : Bytes × Bytes := body none [] bs

theorem body_length_le (high : Option UInt8) (done bs : Bytes) :
    (body high done bs).2.length ≤ bs.length := by
  fun_induction body high done bs with
  | case1 => simp
  | case2 => simp
  | case3 _ _ _ _ _ _ ih => simp only [List.length_cons]; omega
  | case4 _ _ _ _ _ _ ih => simp only [List.length_cons]; omega
  | case5 _ _ _ _ _ _ ih => simp only [List.length_cons]; omega

end HexString

end PdfScene
