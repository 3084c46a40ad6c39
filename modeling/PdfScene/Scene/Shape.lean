import PdfScene.Graphics.State
import PdfScene.Image.Pixels

/-!
# Shapes — what content paints

Content is turned into a list of shapes, in the order in which they are painted. A shape is a mark
together with the graphics state it was made in, so a list of shapes can be painted any number of
times, on any device, without looking at the content again.
-/

set_option autoImplicit false

namespace PdfScene

inductive Mark where
  /-- A path that is filled by a rule, stroked, or both. -/
  | path (p : Path) (fill : Option FillRule) (stroke : Bool)
  /-- A shown string, the text it stands for, and how far it advances in text space. -/
  | text (bytes : Bytes) (text : String) (advance : Float)
  /-- An image in the unit square, with its pixels if its codec is known. -/
  | image (i : Image) (pixels : Option Pixels) (inContent : Bool)
  /-- A shading over all that the clip leaves. -/
  | shading (s : Shading)

/-- A mark with the state it was made in. -/
structure Shape where
  mark : Mark
  state : GraphicsState

/-- Shapes in the order in which they are painted. -/
abbrev Shapes := Array Shape

namespace Shape

def clip (s : Shape) : Clip := s.state.clip

/-- Whether the shape is a shown string. -/
def isText (s : Shape) : Bool :=
  match s.mark with
  | .text _ _ _ => true
  | _ => false

def isImage (s : Shape) : Bool :=
  match s.mark with
  | .image _ _ _ => true
  | _ => false

/-- Whether the shape is a string that leaves no mark. -/
def isInvisible (s : Shape) : Bool := s.isText && s.state.text.mode.isInvisible

end Shape

namespace GraphicsState

/-- Where the next glyph goes, in user space. -/
def textOrigin (s : GraphicsState) : Point := (s.text.matrix * s.ctm).apply (0, 0)

/-- Where the glyph after an advance goes, in user space. -/
def textEnd (s : GraphicsState) (advance : Float) : Point :=
  (.translate advance 0 * s.text.matrix * s.ctm).apply (0, 0)

end GraphicsState

namespace Shapes

def texts (shapes : Shapes) : Shapes := shapes.filter Shape.isText

def images (shapes : Shapes) : Shapes := shapes.filter Shape.isImage

end Shapes

end PdfScene
