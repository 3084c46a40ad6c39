/-!
# Styles — how lines, text and colours are laid down

The small sets of choices that the graphics state holds, with the numbers and names that content
uses for them.
-/

set_option autoImplicit false

namespace PdfScene

/-- How a line ends. -/
inductive LineCap where
  | butt
  | round
  | square
  deriving DecidableEq, Repr

def LineCap.ofNumber? (n : Int) : Option LineCap :=
  if n = 0 then some butt else if n = 1 then some round else if n = 2 then some square else none

def LineCap.number : LineCap → Nat
  | butt => 0
  | round => 1
  | square => 2

/-- How two lines meet. -/
inductive LineJoin where
  | miter
  | round
  | bevel
  deriving DecidableEq, Repr

def LineJoin.ofNumber? (n : Int) : Option LineJoin :=
  if n = 0 then some miter else if n = 1 then some round else if n = 2 then some bevel else none

def LineJoin.number : LineJoin → Nat
  | miter => 0
  | round => 1
  | bevel => 2

/-- How lines are drawn. -/
structure LineStyle where
  width : Float
  cap : LineCap
  join : LineJoin
  miterLimit : Float
  /-- Lengths of dashes and gaps in turn, none for a solid line. -/
  dashes : List Float
  dashOffset : Float

/-- Solid lines one unit wide. -/
def LineStyle.initial : LineStyle := ⟨1, .butt, .miter, 10, [], 0⟩

/-- How text is shown. -/
inductive TextMode where
  | fill
  | stroke
  | fillStroke
  | invisible
  | fillClip
  | strokeClip
  | fillStrokeClip
  | clip
  deriving DecidableEq, Repr

namespace TextMode

/-- Every mode, in the order of their numbers. -/
def all : List TextMode :=
  [fill, stroke, fillStroke, invisible, fillClip, strokeClip, fillStrokeClip, clip]

def ofNumber? (n : Int) : Option TextMode := if n < 0 then none else all[n.toNat]?

def number : TextMode → Nat
  | fill => 0
  | stroke => 1
  | fillStroke => 2
  | invisible => 3
  | fillClip => 4
  | strokeClip => 5
  | fillStrokeClip => 6
  | clip => 7

def fills : TextMode → Bool
  | fill | fillStroke | fillClip | fillStrokeClip => true
  | _ => false

def strokes : TextMode → Bool
  | stroke | fillStroke | strokeClip | fillStrokeClip => true
  | _ => false

/-- Whether glyphs leave no mark. -/
def isInvisible : TextMode → Bool
  | invisible | clip => true
  | _ => false

end TextMode

/-- How a colour is combined with what it is laid over. -/
inductive BlendMode where
  | normal
  | multiply
  | screen
  | overlay
  | darken
  | lighten
  | colorDodge
  | colorBurn
  | hardLight
  | softLight
  | difference
  | exclusion
  | hue
  | saturation
  | color
  | luminosity
  deriving DecidableEq, Repr

namespace BlendMode

def name : BlendMode → String
  | normal => "Normal"
  | multiply => "Multiply"
  | screen => "Screen"
  | overlay => "Overlay"
  | darken => "Darken"
  | lighten => "Lighten"
  | colorDodge => "ColorDodge"
  | colorBurn => "ColorBurn"
  | hardLight => "HardLight"
  | softLight => "SoftLight"
  | difference => "Difference"
  | exclusion => "Exclusion"
  | hue => "Hue"
  | saturation => "Saturation"
  | color => "Color"
  | luminosity => "Luminosity"

def all : List BlendMode :=
  [normal, multiply, screen, overlay, darken, lighten, colorDodge, colorBurn, hardLight, softLight,
    difference, exclusion, hue, saturation, color, luminosity]

/-- The mode with a name. `Compatible` is an old name of the normal one. -/
def ofName? (name : String) : Option BlendMode :=
  if name = "Compatible" then some normal else all.find? fun mode => mode.name = name

end BlendMode

end PdfScene
