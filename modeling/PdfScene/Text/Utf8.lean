import PdfScene.Bytes

/-!
# UTF-8, read without ever failing

A name is written in bytes and used as text. Bytes that are not well-formed UTF-8 still have to
give some text: each maximal run that starts a character and then breaks off, and each byte that
can start none, becomes one replacement character U+FFFD. On well-formed input nothing is replaced,
so distinct well-formed names stay distinct.
-/

set_option autoImplicit false

namespace PdfScene.Utf8

/-- What stands for bytes that are no character. -/
def replacement : Char := '\uFFFD'

/-- A character whose first bytes have been read. -/
structure Partial where
  /-- How many bytes it still needs. -/
  tails : Nat
  /-- Least and greatest byte allowed next, which rules out long forms and surrogates. -/
  low : UInt8
  high : UInt8
  /-- The value of the bits read so far. -/
  bits : Nat

/-- What one byte leads to. -/
inductive Step where
  /-- A character is complete. -/
  | char (c : Char)
  /-- A character is under way. -/
  | more (p : Partial)

/-- A byte read where a character may start. -/
def start (b : UInt8) : Step :=
  if b < 0x80 then .char (Char.ofNat b.toNat)
  else if 0xC2 ≤ b && b ≤ 0xDF then .more ⟨1, 0x80, 0xBF, b.toNat % 32⟩
  else if b == 0xE0 then .more ⟨2, 0xA0, 0xBF, 0⟩
  else if b == 0xED then .more ⟨2, 0x80, 0x9F, 13⟩
  else if 0xE1 ≤ b && b ≤ 0xEF then .more ⟨2, 0x80, 0xBF, b.toNat % 16⟩
  else if b == 0xF0 then .more ⟨3, 0x90, 0xBF, 0⟩
  else if 0xF1 ≤ b && b ≤ 0xF3 then .more ⟨3, 0x80, 0xBF, b.toNat % 8⟩
  else if b == 0xF4 then .more ⟨3, 0x80, 0x8F, 4⟩
  else .char replacement

/-- A byte read inside a character; none if the character breaks off before it. -/
def Partial.extend? (p : Partial) (b : UInt8) : Option Step :=
  if p.low ≤ b && b ≤ p.high then
    let bits := p.bits * 64 + b.toNat % 64
    some (if p.tails ≤ 1 then .char (Char.ofNat bits) else .more ⟨p.tails - 1, 0x80, 0xBF, bits⟩)
  else none

/-- One byte: the replacement for a character that breaks off before it, if one does, and where
the byte leads. -/
def step (inside : Option Partial) (b : UInt8) : List Char × Step :=
  match inside with
  | none => ([], start b)
  | some p =>
    match p.extend? b with
    | some s => ([], s)
    | none => ([replacement], start b)

/-- The characters of a byte string, read from inside a character or from between two. -/
def chars (inside : Option Partial) : Bytes → List Char
  | [] => if inside.isSome then [replacement] else []
  | b :: rest =>
    let (broken, next) := step inside b
    broken ++
      match next with
      | .char c => c :: chars none rest
      | .more p => chars (some p) rest

def decode (bs : Bytes) : String := String.ofList (chars none bs)

end PdfScene.Utf8
