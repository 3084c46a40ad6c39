/-!
# Bytes — what files, strings and streams are made of

A PDF file is bytes, and so is everything cut out of it before a rule gives it a meaning: string
operands, stream data, decoded content. `Bytes` is a list of bytes, because every reader of this
library consumes its input from the front and says how much is left by returning what is left.
-/

set_option autoImplicit false

namespace PdfScene

/-- A finite run of bytes. -/
abbrev Bytes := List UInt8

namespace Bytes

def ofAscii (s : String) : Bytes := s.toList.map fun c => UInt8.ofNat c.toNat

/-- The text whose code points are the bytes themselves. -/
def latin1 (bs : Bytes) : String := String.ofList (bs.map fun b => Char.ofNat b.toNat)

/-- How many bytes the Latin-1 reading of `bs` takes in UTF-8: one for ASCII, two above it. -/
def latin1Utf8Size (bs : Bytes) : Nat := bs.foldl (fun n b => n + if b < 0x80 then 1 else 2) 0

/-- Big-endian value of a byte string. -/
def bigEndian (bs : Bytes) : Nat := bs.foldl (fun n b => n * 256 + b.toNat) 0

/-- The position of the first occurrence of `word` in `bs`, counted from `offset`. -/
def find? (word : Bytes) : Bytes → Nat → Option Nat
  | [], offset => if word.isEmpty then some offset else none
  | b :: rest, offset =>
    if word.isPrefixOf (b :: rest) then some offset else find? word rest (offset + 1)

/-- A count of bytes as a machine word has it: counts that do not fit start again at zero. -/
def wrap (count : Nat) : Nat := count % 0x10000000000000000

/-- The most bytes that there can be room for. -/
def mostRoom : Nat := 0x7FFFFFFFFFFFFFFF

end Bytes

end PdfScene
