import PdfScene.Font.CMap
import PdfScene.Geometry.Affine
import PdfScene.Text.WinAnsi

/-!
# Fonts — codes, advances and text

What content needs of a font is how a shown string splits into codes, how far each code advances,
and which text it stands for. Outlines are the device's business. Simple fonts have codes of one
byte and a table of widths from a first code on; composite fonts have codes of two bytes and widths
by code.
-/

set_option autoImplicit false

namespace PdfScene

/-- The kinds of font. -/
inductive FontKind where
  | type1
  | mmType1
  | trueType
  /-- Glyphs are content. -/
  | type3
  /-- Codes of two bytes. -/
  | type0
  | unknown
  deriving DecidableEq, Repr, Inhabited

namespace FontKind

def name : FontKind → String
  | type1 => "Type1"
  | mmType1 => "MMType1"
  | trueType => "TrueType"
  | type3 => "Type3"
  | type0 => "Type0"
  | unknown => "Unknown"

def ofName (name : String) : FontKind :=
  ([type1, mmType1, trueType, type3, type0].find? fun kind => kind.name = name).getD unknown

def isComposite (kind : FontKind) : Bool := kind == type0

end FontKind

/-- A font. Widths are in thousandths of text space, but in glyph space for content glyphs. -/
structure Font where
  /-- The name it is used by. -/
  name : String
  kind : FontKind
  baseFont : String
  firstChar : UInt32
  /-- Widths from the first code on, if the font states any. -/
  widths : Option (Array Float)
  missingWidth : Float
  /-- Widths of a composite font's codes. -/
  cidWidths : Std.HashMap UInt32 Float
  defaultCidWidth : Float
  /-- From glyph space to text space. -/
  matrix : Affine Float
  texts : Option CMap

namespace Font

/-- The width of every code of a simple font that states no widths. -/
def fallbackWidth : Float := 500

/-- Codes of one byte. -/
def simpleCodes (bs : Bytes) : List UInt32 := bs.map UInt8.toUInt32

/-- Codes of two bytes. A last byte without a partner is a code of its own. -/
def compositeCodes : Bytes → List UInt32
  | [] => []
  | [b] => [b.toUInt32]
  | high :: low :: rest => (high.toUInt32 <<< 8 ||| low.toUInt32) :: compositeCodes rest

/-- The codes of a shown string. -/
def codes (f : Font) (bs : Bytes) : List UInt32 :=
  if f.kind.isComposite then compositeCodes bs else simpleCodes bs

def simpleWidth (f : Font) (code : UInt32) : Float :=
  match f.widths with
  | some widths =>
    if code < f.firstChar then f.missingWidth
    else widths.getD (code - f.firstChar).toNat f.missingWidth
  | none => fallbackWidth

/-- How far a code advances, in text space at size one. -/
def advance (f : Font) (code : UInt32) : Float :=
  if f.kind.isComposite then f.cidWidths.getD code f.defaultCidWidth / 1000
  else if f.kind = .type3 then (f.matrix.applyVector (f.simpleWidth code, 0)).1
  else f.simpleWidth code / 1000

/-- Whether word spacing applies to a code: to the single byte 32 and nothing else. -/
def isWordSpace (f : Font) (code : UInt32) : Bool := code == 32 && !f.kind.isComposite

/-- The text of a code: the font's own map first, then the number itself or the encoding of simple
fonts. -/
def codeText (f : Font) (code : UInt32) : String :=
  match f.texts.bind fun texts => texts.lookup? code with
  | some text => text
  | none =>
    if f.kind.isComposite then
      String.singleton (if code.toNat.isValidChar then Char.ofNat code.toNat else '\uFFFD')
    else String.singleton (WinAnsi.char code.toUInt8)

def text (f : Font) (bs : Bytes) : String := String.join ((f.codes bs).map f.codeText)

end Font

end PdfScene
