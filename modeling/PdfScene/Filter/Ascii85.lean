import PdfScene.Error
import PdfScene.Lexical.Byte

/-!
# ASCII85Decode

Five digits in base 85, written as the bytes from `!` to `u`, make four bytes. A `z` between groups
stands for four zero bytes. The data may open with `<~`, ends at the first `~` and may hold blanks
anywhere. A last group of n + 1 digits makes n bytes: it is completed by the greatest digit, which
rounds up, and the bytes past the n-th are dropped.
-/

set_option autoImplicit false

namespace PdfScene.Ascii85

/-- The number that digits in base 85 stand for. -/
def value (digits : List Nat) : Nat := digits.foldl (fun n d => n * 85 + d) 0

/-- The four bytes of a number, greatest place first, if it has no more than four. -/
def bytes? (n : Nat) : Option Bytes :=
  if n < 0x100000000 then
    some [UInt8.ofNat (n / 0x1000000), UInt8.ofNat (n / 0x10000), UInt8.ofNat (n / 0x100), UInt8.ofNat n]
  else none

/-- The bytes of the last group, which may be short. One digit alone makes none. -/
def lastGroup (digits : List Nat) : Except DecodeFault Bytes :=
  if digits.length ≤ 1 then .ok []
  else
    match bytes? (value (digits ++ List.replicate (5 - digits.length) 84)) with
    | some bytes => .ok (bytes.take (digits.length - 1))
    | none => .error .groupOutOfRange

/-- Decodes from inside a group whose first digits are `digits`, after the bytes `done` (latest
first). -/
def body (done : Bytes) (digits : List Nat) : Bytes → Except DecodeFault Bytes
  | [] => (lastGroup digits).map fun bytes => done.reverse ++ bytes
  | b :: rest =>
    if b == 0x7E then (lastGroup digits).map fun bytes => done.reverse ++ bytes
    else if b == 0x7A && digits.isEmpty then body (0 :: 0 :: 0 :: 0 :: done) [] rest
    else if 0x21 ≤ b && b ≤ 0x75 then
      let digits := digits ++ [(b - 0x21).toNat]
      if digits.length < 5 then body done digits rest
      else
        match bytes? (value digits) with
        | some bytes => body (bytes.reverse ++ done) [] rest
        | none => .error .groupOutOfRange
    else if Byte.isBlank b then body done digits rest
    else .error (.invalidByte b)

/-- What follows the opening mark, if there is one. -/
def skipMark (data : Bytes) : Bytes :=
  match data with
  | a :: b :: rest => if a == 0x3C && b == 0x7E then rest else data
  | _ => data

def decode (data : Bytes) : Except DecodeFault Bytes := body [] [] (skipMark data)

end PdfScene.Ascii85
