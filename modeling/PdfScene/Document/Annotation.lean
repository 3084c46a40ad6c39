import PdfScene.Resource.Form

/-!
# Annotations

An annotation puts something of its own on a page: a rectangle, flags that say when it shows, and an
appearance, which is a form. Wherever the form's own space is, its box, once the form's matrix has
moved it, is brought onto the rectangle.
-/

set_option autoImplicit false

namespace PdfScene

/-- The kinds of annotation. -/
inductive AnnotationKind where
  | text
  | link
  | freeText
  | line
  | square
  | circle
  | highlight
  | underline
  | strikeOut
  | stamp
  | ink
  | popup
  | widget
  | other (name : String)
  deriving DecidableEq, Repr

namespace AnnotationKind

def name : AnnotationKind → String
  | text => "Text"
  | link => "Link"
  | freeText => "FreeText"
  | line => "Line"
  | square => "Square"
  | circle => "Circle"
  | highlight => "Highlight"
  | underline => "Underline"
  | strikeOut => "StrikeOut"
  | stamp => "Stamp"
  | ink => "Ink"
  | popup => "Popup"
  | widget => "Widget"
  | other name => name

/-- The kinds that have a name of their own. -/
def known : List AnnotationKind :=
  [text, link, freeText, line, square, circle, highlight, underline, strikeOut, stamp, ink, popup,
    widget]

def ofName (name : String) : AnnotationKind :=
  (known.find? fun kind => kind.name = name).getD (other name)

end AnnotationKind

/-- What is painted for. -/
inductive Target where
  | screen
  | print
  deriving DecidableEq, Repr

structure Annotation where
  ref : Option ObjRef
  kind : AnnotationKind
  rect : Rect Float
  flags : UInt32
  appearance : Option StreamObj

namespace Annotation

/-- The appearance of a dictionary: a stream, or the one of several that the state selects. -/
def readAppearance (lib : Library) (d : Dict) : Option StreamObj :=
  match (lib.dict? d "AP").bind fun appearances => lib.get? appearances "N" with
  | none => none
  | some normal =>
    match normal.stream? with
    | some s => some s
    | none => do
      let states ← normal.dict?
      let state ← lib.name? d "AS"
      lib.stream? states state

/-- Reads an annotation. Without a rectangle there is none. -/
def read? (lib : Library) (o : Obj) : Option Annotation := do
  let d ← (lib.resolve o).dict?
  let rect ← lib.rect? d "Rect"
  some
    { ref := o.ref?
      kind := .ofName ((lib.name? d "Subtype").getD "")
      rect
      flags := UInt32.ofInt ((lib.int? d "F").getD 0)
      appearance := readAppearance lib d }

def isHidden (a : Annotation) : Bool := a.flags &&& 2 != 0

def isPrintable (a : Annotation) : Bool := a.flags &&& 4 != 0

def isOffScreen (a : Annotation) : Bool := a.flags &&& 32 != 0

/-- Whether an annotation shows on a target. -/
def isVisible (a : Annotation) (target : Target) : Bool :=
  !a.isHidden &&
    match target with
    | .screen => !a.isOffScreen
    | .print => a.isPrintable

/-- The transform that brings a box, once `matrix` has moved it, onto a rectangle. A box that has no
extent is only moved. -/
def placement {α : Type} [Scalar α] (rect box : Rect α) (matrix : Affine α) : Affine α :=
  let moved := box.transformed matrix
  if moved.width == 0 || moved.height == 0 then .translate rect.x rect.y
  else
    .translate (-moved.x) (-moved.y) *
        .scale (rect.width / moved.width) (rect.height / moved.height) *
      .translate rect.x rect.y

/-- Where the appearance goes. A form without a box takes the rectangle for one. -/
def appearanceMatrix (a : Annotation) (form : Form) : Affine Float :=
  placement a.rect (form.bbox.getD a.rect) form.matrix

/-- The appearance as a form that nothing uses yet. -/
def readForm (lib : Library) (a : Annotation) : Run (Option Form) :=
  match a.appearance with
  | some s => some <$> Form.read lib s
  | none => pure none

end Annotation

end PdfScene
