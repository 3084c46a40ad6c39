import PdfScene.Geometry.Rect

/-!
# Page frames — from a page's space to a device's

A page shows one of its five boundaries, turned and zoomed. The device's origin is the top left
corner of the smallest upright rectangle around the turned boundary, and its y axis points down.
Right angles are told by equality, so angles that miss one by noise are put on it first.
-/

set_option autoImplicit false

namespace PdfScene

/-- The boundaries of a page, from the sheet to what is meant to be seen. -/
inductive Boundary where
  | media
  | crop
  | bleed
  | trim
  | art
  deriving DecidableEq, Repr

namespace Boundary

def all : List Boundary := [media, crop, bleed, trim, art]

/-- The boundary with a number. Numbers that mean none mean the crop box. -/
def ofNumber (n : Int) : Boundary :=
  if n = 1 then media
  else if n = 3 then bleed
  else if n = 4 then trim
  else if n = 5 then art
  else crop

/-- The key of a boundary in a page dictionary. -/
def key : Boundary → String
  | media => "MediaBox"
  | crop => "CropBox"
  | bleed => "BleedBox"
  | trim => "TrimBox"
  | art => "ArtBox"

end Boundary

namespace Frame

variable {α : Type} [Scalar α]

/-- Ranges of angles that count as one angle: first, last, and the angle they count as. -/
def snaps : List (α × α × α) :=
  [(Scalar.decimal (-1) 3, Scalar.decimal 1 3, 0),
    (Scalar.decimal 8999 2, Scalar.decimal 90001 3, 90),
    (Scalar.decimal 17999 2, Scalar.decimal 180001 3, 180),
    (Scalar.decimal 26999 2, Scalar.decimal 270001 3, 270)]

/-- The angle that an angle counts as. -/
def snap (total : α) : α :=
  match snaps.find? fun (first, last, _) => first ≤ total && total ≤ last with
  | some (_, _, angle) => angle
  | none => total

/-- The angle by which a page is turned: what the viewer asks for less what the page stores, since a
page stores a clockwise angle, brought into one turn. -/
def totalRotation (stored user : α) : α :=
  let page := Scalar.remainder (360 - stored) 360
  let total := Scalar.remainder (page + user) 360
  snap (if total < 0 then total + 360 else total)

variable [Angle α]

/-- The smallest upright rectangle around a boundary that is zoomed and turned about the origin. -/
def bounds (boundary : Rect α) (rotation zoom : α) : Rect α :=
  let width := boundary.width * zoom
  let height := boundary.height * zoom
  let corners := [(0, height), (width, height), (0, 0), (width, 0)]
  (Rect.bounding? ((0, 0) :: corners.map (Affine.rotate rotation).apply)).getD Rect.zero

/-- Width and height of a page on a device. -/
def size (boundary : Rect α) (rotation zoom : α) : α × α :=
  let width := boundary.width * zoom
  let height := boundary.height * zoom
  if rotation == 0 || rotation == 180 then (width, height)
  else if rotation == 90 || rotation == 270 then (height, width)
  else
    let bounds := bounds boundary rotation zoom
    (bounds.width, bounds.height)

/-- The translation that brings a turned boundary back to where x and y are positive. -/
def shift (w h rotation : α) : Affine α :=
  if rotation == 0 then .identity
  else if rotation == 90 then .translate h 0
  else if rotation == 180 then .translate w h
  else if rotation == 270 then .translate 0 w
  else if rotation < 90 then .translate (h * Angle.cos (90 - rotation)) 0
  else if rotation < 180 then
    let angle := 180 - rotation
    .translate (h * Angle.sin angle + w * Angle.cos angle) (h * Angle.cos angle)
  else if rotation < 270 then
    let angle := rotation - 180
    .translate (w * Angle.cos angle) (w * Angle.sin angle + h * Angle.cos angle)
  else .translate 0 (w * Angle.cos (rotation - 270))

/-- The transform from page space to device space: the boundary's corner goes to the origin, the
page is turned, shifted, zoomed and flipped, and moved down by its height. -/
def transform (boundary : Rect α) (rotation zoom : α) : Affine α :=
  [.translate 0 (bounds boundary rotation zoom).height, .scale 1 (-1), .scale zoom zoom,
    shift boundary.width boundary.height rotation, .rotate rotation,
    .translate (-boundary.x) (-boundary.y)].foldl (fun (m step : Affine α) => step * m) .identity

/-- The corners of a boundary on the device. -/
def shape (boundary : Rect α) (rotation zoom : α) : List (α × α) :=
  boundary.corners.map (transform boundary rotation zoom).apply

end Frame

end PdfScene
