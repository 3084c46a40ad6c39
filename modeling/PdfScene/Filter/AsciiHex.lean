import PdfScene.Lexical.Byte

/-!
# ASCIIHexDecode

Two hex digits make a byte. The data ends at the first `>`; anything before it that is no hex digit
counts for nothing, and a last digit without a partner is the high half of a byte.
-/

set_option autoImplicit false

namespace PdfScene.AsciiHex

/-- The bytes that a run of digit values spells, after those in `done` (latest first). -/
def pairs (done : Bytes) : List UInt8 → Bytes
  | [] => done.reverse
  | [high] => ((high <<< 4) :: done).reverse
  | high :: low :: rest => pairs ((high <<< 4 ||| low) :: done) rest

/-- Decodes hex digits up to the end mark. -/
def decode (data : Bytes) : Bytes :=
  pairs [] ((data.takeWhile (· != 0x3E)).filterMap Byte.hexValue?)

end PdfScene.AsciiHex
