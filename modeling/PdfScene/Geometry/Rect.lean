import PdfScene.Geometry.Affine

/-!
# Rectangles

A rectangle is its lower left corner and its extent. It may be written as any two opposite corners;
the image of a rectangle under a transform is read as the smallest rectangle around it.
-/

set_option autoImplicit false

namespace PdfScene

/-- A rectangle with sides along the axes. -/
structure Rect (α : Type) where
  x : α
  y : α
  width : α
  height : α

namespace Rect

variable {α : Type} [Scalar α]

/-- The rectangle between two opposite corners. -/
def ofCorners (x1 y1 x2 y2 : α) : Rect α :=
  ⟨Scalar.lesser x1 x2, Scalar.lesser y1 y2, Scalar.abs (x2 - x1), Scalar.abs (y2 - y1)⟩

/-- The rectangle between the corners that the first four numbers of a list are. -/
def ofList? : List α → Option (Rect α)
  | x1 :: y1 :: x2 :: y2 :: _ => some (ofCorners x1 y1 x2 y2)
  | _ => none

/-- The empty rectangle at the origin. -/
def zero : Rect α := ⟨0, 0, 0, 0⟩

def right (r : Rect α) : α := r.x + r.width

def top (r : Rect α) : α := r.y + r.height

/-- Whether a rectangle has no area. -/
def isEmpty (r : Rect α) : Bool := r.width ≤ 0 || r.height ≤ 0

/-- The overlap of two rectangles, if it has an area. -/
def intersection? (r s : Rect α) : Option (Rect α) :=
  let x1 := Scalar.greater r.x s.x
  let y1 := Scalar.greater r.y s.y
  let x2 := Scalar.lesser r.right s.right
  let y2 := Scalar.lesser r.top s.top
  if x1 < x2 ∧ y1 < y2 then some ⟨x1, y1, x2 - x1, y2 - y1⟩ else none

/-- The corners, clockwise from the top left. -/
def corners (r : Rect α) : List (α × α) :=
  [(r.x, r.top), (r.right, r.top), (r.right, r.y), (r.x, r.y)]

/-- Least and greatest coordinates of some points. -/
structure Extent (α : Type) where
  minX : α
  minY : α
  maxX : α
  maxY : α

/-- The extent of `e` and one more point. -/
def Extent.add (e : Extent α) (p : α × α) : Extent α :=
  ⟨Scalar.lesser e.minX p.1, Scalar.lesser e.minY p.2, Scalar.greater e.maxX p.1,
    Scalar.greater e.maxY p.2⟩

/-- The extent of points, unless there are none. -/
def Extent.ofPoints? : List (α × α) → Option (Extent α)
  | [] => none
  | p :: ps => some (ps.foldl Extent.add ⟨p.1, p.2, p.1, p.2⟩)

/-- The smallest rectangle that holds points, unless there are none. -/
def bounding? (ps : List (α × α)) : Option (Rect α) :=
  (Extent.ofPoints? ps).map fun e => ⟨e.minX, e.minY, e.maxX - e.minX, e.maxY - e.minY⟩

/-- The smallest rectangle that holds the image of a rectangle. -/
def transformed (r : Rect α) (m : Affine α) : Rect α :=
  (bounding? (r.corners.map m.apply)).getD zero

/-- Lower left and upper right corner. -/
def toList (r : Rect α) : List α := [r.x, r.y, r.right, r.top]

/-- Two corners in brackets. -/
def text (r : Rect Float) : String :=
  "[" ++ String.intercalate " " (r.toList.map Decimal.text) ++ "]"

end Rect

end PdfScene
