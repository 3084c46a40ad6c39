import PdfScene.Bytes

/-!
# UTF-16, read without ever failing

The texts of a character map are big-endian 16-bit units. Two surrogates that fit make one
character; a surrogate without a partner becomes the replacement character.
-/

set_option autoImplicit false

namespace PdfScene.Utf16

/-- The units of a byte string. A last byte without a partner is a unit of its own. -/
def units : Bytes → List Nat
  | [] => []
  | [b] => [b.toNat]
  | high :: low :: rest => (high.toNat * 256 + low.toNat) :: units rest

/-- The first half of a pair. -/
def isHigh (unit : Nat) : Bool := 0xD800 ≤ unit && unit < 0xDC00

/-- The second half of a pair. -/
def isLow (unit : Nat) : Bool := 0xDC00 ≤ unit && unit < 0xE000

def chars : List Nat → List Char
  | [] => []
  | [u] => [if isHigh u || isLow u then '\uFFFD' else Char.ofNat u]
  | u :: v :: rest =>
    if isHigh u && isLow v then
      Char.ofNat (0x10000 + (u - 0xD800) * 0x400 + (v - 0xDC00)) :: chars rest
    else if isHigh u || isLow u then '\uFFFD' :: chars (v :: rest)
    else Char.ofNat u :: chars (v :: rest)

/-- The characters that a byte string spells. -/
def decode (bs : Bytes) : List Char := chars (units bs)

end PdfScene.Utf16
