import PdfScene.Bytes

/-!
# Byte classes

Every byte is blank, a delimiter or regular. Blanks and delimiters end a token; a regular byte
belongs to the token it stands in. Digits and hex digits are the two classes that carry a value.
-/

set_option autoImplicit false

namespace PdfScene.Byte

/-- The blank bytes: NUL, TAB, LF, FF, CR and SPACE. -/
def isBlank (b : UInt8) : Bool :=
  b == 0x00 || b == 0x09 || b == 0x0A || b == 0x0C || b == 0x0D || b == 0x20

/-- The delimiters: parentheses, angle, square and curly brackets, the slash and the percent sign. -/
def isDelimiter (b : UInt8) : Bool :=
  b == 0x28 || b == 0x29 || b == 0x3C || b == 0x3E || b == 0x5B || b == 0x5D ||
    b == 0x7B || b == 0x7D || b == 0x2F || b == 0x25

def endsToken (b : UInt8) : Bool := isBlank b || isDelimiter b

/-- CR or LF. -/
def isLineEnd (b : UInt8) : Bool := b == 0x0D || b == 0x0A

def isDigit (b : UInt8) : Bool := 0x30 ≤ b && b ≤ 0x39

def isOctal (b : UInt8) : Bool := 0x30 ≤ b && b ≤ 0x37

/-- A byte that opens a numeral: a digit, a sign or the decimal point. -/
def opensNumeral (b : UInt8) : Bool := isDigit b || b == 0x2B || b == 0x2D || b == 0x2E

/-- The value of a decimal or octal digit. -/
def digitValue (b : UInt8) : Nat := (b - 0x30).toNat

/-- The value of a hex digit of either case. -/
def hexValue? (b : UInt8) : Option UInt8 :=
  if 0x30 ≤ b && b ≤ 0x39 then some (b - 0x30)
  else if 0x61 ≤ b && b ≤ 0x66 then some (b - 0x61 + 10)
  else if 0x41 ≤ b && b ≤ 0x46 then some (b - 0x41 + 10)
  else none

end PdfScene.Byte
