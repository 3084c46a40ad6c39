import PdfScene.Color.Pattern
import PdfScene.Font.Read
import PdfScene.Geometry.Path
import PdfScene.Graphics.Style

/-!
# The graphics state

Everything that decides how the next mark is made: the transform, paints, lines, the clip and the
state of text. It is one value; saving it is keeping it, and restoring is taking the kept one.

A text matrix says where the next glyph goes and a line matrix where the line started. Showing text
moves the first, starting a line sets both.
-/

set_option autoImplicit false

namespace PdfScene

/-- What is painted with. -/
inductive Paint where
  | solid (c : Color)
  /-- A pattern, with the colour of a stencil. -/
  | pattern (p : Pattern) (c : Option Color)

/-- How text is shown, and where. -/
structure TextState where
  font : Option Font
  /-- The name the font was asked for by, whether or not there is such a font. -/
  fontName : Option String
  size : Float
  charSpacing : Float
  wordSpacing : Float
  /-- Horizontal scaling; one is normal. -/
  scaling : Float
  leading : Float
  rise : Float
  mode : TextMode
  matrix : Affine Float
  lineMatrix : Affine Float

namespace TextState

/-- Before anything has been said about text. -/
def initial : TextState := ⟨none, none, 0, 0, 0, 1, 0, 0, .fill, .identity, .identity⟩

def setMatrix (t : TextState) (m : Affine Float) : TextState := { t with matrix := m, lineMatrix := m }

/-- Starts a line at a distance from the start of this one. -/
def moveLine (t : TextState) (x y : Float) : TextState :=
  t.setMatrix (.translate x y * t.lineMatrix)

/-- Starts the line below. -/
def nextLine (t : TextState) : TextState := t.moveLine 0 (-t.leading)

def advance (t : TextState) (x : Float) : TextState :=
  { t with matrix := .translate x 0 * t.matrix }

/-- From glyphs of size one to text space. -/
def glyphMatrix (size scaling rise : Float) : Affine Float := ⟨size * scaling, 0, 0, size, 0, rise⟩

/-- From glyphs of size one to the space of `ctm`. -/
def renderingMatrix (t : TextState) (ctm : Affine Float) : Affine Float :=
  glyphMatrix t.size t.scaling t.rise * t.matrix * ctm

end TextState

structure GraphicsState where
  ctm : Affine Float
  strokeSpace : ColorSpace
  fillSpace : ColorSpace
  strokePaint : Paint
  fillPaint : Paint
  line : LineStyle
  clip : Clip
  text : TextState
  strokeAlpha : Float
  fillAlpha : Float
  blend : BlendMode

namespace GraphicsState

/-- The state that content starts from: opaque black over everything. -/
def initial : GraphicsState :=
  { ctm := .identity
    strokeSpace := .deviceGray
    fillSpace := .deviceGray
    strokePaint := .solid .black
    fillPaint := .solid .black
    line := .initial
    clip := []
    text := .initial
    strokeAlpha := 1
    fillAlpha := 1
    blend := .normal }

/-- The initial state under a transform. -/
def underCtm (ctm : Affine Float) : GraphicsState := { initial with ctm }

/-- The state with one more transform before those in effect. -/
def concat (s : GraphicsState) (m : Affine Float) : GraphicsState := { s with ctm := m * s.ctm }

end GraphicsState

end PdfScene
