import PdfScene.Bytes

/-!
# WinAnsiEncoding

The encoding of simple fonts: Latin-1, but with punctuation and a few letters where Latin-1 has the
control characters from 0x80 to 0x9F. Places without a character read as the replacement character.
-/

set_option autoImplicit false

namespace PdfScene.WinAnsi

/-- The characters from 0x80 on. -/
def high : List Char :=
  ['€', '\uFFFD', '‚', 'ƒ', '„', '…', '†', '‡', 'ˆ', '‰', 'Š', '‹', 'Œ', '\uFFFD', 'Ž', '\uFFFD',
    '\uFFFD', '‘', '’', '“', '”', '•', '–', '—', '˜', '™', 'š', '›', 'œ', '\uFFFD', 'ž', 'Ÿ']

def char (b : UInt8) : Char :=
  if 0x80 ≤ b ∧ b ≤ 0x9F then high.getD (b.toNat - 0x80) '\uFFFD' else Char.ofNat b.toNat

def decode (bs : Bytes) : String := String.ofList (bs.map char)

end PdfScene.WinAnsi
