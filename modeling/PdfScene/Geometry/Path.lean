import PdfScene.Geometry.Rect

/-!
# Paths and clips

A path is built one segment at a time and keeps two points beside its segments: where the next one
starts, and where its subpath started. A line or curve that has no point to start from makes one. A
clip is the chain of the regions that painting is confined to, the latest first.
-/

set_option autoImplicit false

namespace PdfScene

/-- A point of the plane. -/
abbrev Point := Float × Float

/-- A segment of a path. -/
inductive Segment where
  | move (p : Point)
  | line (p : Point)
  /-- A Bézier curve by its two control points and its end. -/
  | curve (c1 c2 p : Point)
  | close

namespace Segment

def points : Segment → List Point
  | move p => [p]
  | line p => [p]
  | curve c1 c2 p => [c1, c2, p]
  | close => []

def map (f : Point → Point) : Segment → Segment
  | move p => move (f p)
  | line p => line (f p)
  | curve c1 c2 p => curve (f c1) (f c2) (f p)
  | close => close

/-- A letter and the coordinates that follow it. -/
def text (s : Segment) : String :=
  let coordinates := s.points.flatMap fun p => [p.1, p.2]
  let letter :=
    match s with
    | move _ => "M"
    | line _ => "L"
    | curve _ _ _ => "C"
    | close => "Z"
  String.intercalate " " (letter :: coordinates.map Decimal.text)

end Segment

/-- A path under construction. -/
structure Path where
  segments : Array Segment
  current : Option Point
  start : Option Point

namespace Path

def empty : Path := ⟨#[], none, none⟩

def isEmpty (p : Path) : Bool := p.segments.isEmpty

def size (p : Path) : Nat := p.segments.size

def toList (p : Path) : List Segment := p.segments.toList

def moveTo (p : Path) (q : Point) : Path := ⟨p.segments.push (.move q), some q, some q⟩

/-- Adds a line, or starts a subpath if there is none. -/
def lineTo (p : Path) (q : Point) : Path :=
  match p.current with
  | none => p.moveTo q
  | some _ => { p with segments := p.segments.push (.line q), current := some q }

/-- Adds a curve, which starts at its first control point if there is no other. -/
def curveTo (p : Path) (c1 c2 q : Point) : Path :=
  let p :=
    match p.current with
    | none => p.moveTo c1
    | some _ => p
  { p with segments := p.segments.push (.curve c1 c2 q), current := some q }

/-- Whether the last segment closes a subpath. -/
def isClosed (p : Path) : Bool :=
  match p.segments.back? with
  | some .close => true
  | _ => false

/-- Closes the subpath, once. The next segment starts where it started. -/
def close (p : Path) : Path :=
  match p.current with
  | none => p
  | some _ =>
    { p with
      segments := if p.isClosed then p.segments else p.segments.push .close
      current := p.start }

/-- Adds a closed rectangle from the corner (x, y). -/
def rect (p : Path) (x y width height : Float) : Path :=
  ((((p.moveTo (x, y)).lineTo (x + width, y)).lineTo (x + width, y + height)).lineTo
    (x, y + height)).close

def map (p : Path) (f : Point → Point) : Path :=
  ⟨p.segments.map (Segment.map f), p.current.map f, p.start.map f⟩

def transformed (p : Path) (m : Affine Float) : Path := p.map m.apply

/-- The extent of all points of a path, control points included. -/
def extent? (p : Path) : Option (Rect.Extent Float) :=
  Rect.Extent.ofPoints? (p.toList.flatMap Segment.points)

/-- Corner, width and height of a path that is one upright rectangle and nothing else. -/
def asRect? (p : Path) : Option (Rect Float) :=
  match p.toList with
  | [.move (x0, y0), .line (x1, y1), .line (x2, y2), .line (x3, y3), .close] =>
    if y1 == y0 && x2 == x1 && y3 == y2 && x3 == x0 then some ⟨x0, y0, x1 - x0, y2 - y0⟩ else none
  | _ => none

def text (p : Path) : String := String.intercalate " " (p.toList.map Segment.text)

end Path

/-- Which points count as inside a path that crosses itself. -/
inductive FillRule where
  | nonZero
  | evenOdd
  deriving DecidableEq, Repr, Inhabited

/-- A region that painting is confined to: a path with the transform it was set under. -/
structure ClipRegion where
  path : Path
  ctm : Affine Float
  rule : FillRule

/-- The regions that painting is confined to, latest first. -/
abbrev Clip := List ClipRegion

namespace Clip

/-- The clip confined to one more region. -/
def intersect (c : Clip) (path : Path) (ctm : Affine Float) (rule : FillRule) : Clip :=
  ⟨path, ctm, rule⟩ :: c

/-- The regions from the first set to the last. -/
def regions (c : Clip) : List ClipRegion := c.reverse

end Clip

end PdfScene
