import PdfScene.Document.PageTree
import PdfScene.Geometry.Frame

/-!
# Page boundaries and inherited entries

A page inherits its sheet, its crop box, its turn and its resources from the nearest node above it
that has them. The crop box is what the sheet leaves of it; the inner boundaries are the page's own
and, where it has none, the crop box. Boundaries never fail: a page without a sheet is on US letter
paper, and a crop box off the sheet counts as the sheet.

The rules compare numbers but never compute angles or roots, so they are stated over any scalars,
with the reading of a number of the file as a parameter.
-/

set_option autoImplicit false

namespace PdfScene

/-- The boundary that the sheet, the crop box and the page's own entry make. -/
def Boundary.select {α : Type} [Scalar α] (sheet crop own : Option (Rect α)) :
    Boundary → Rect α :=
  let sheet := sheet.getD ⟨0, 0, 612, 792⟩
  let crop :=
    match crop with
    | some crop => (crop.intersection? sheet).getD sheet
    | none => sheet
  fun
    | .media => sheet
    | .crop => crop
    | .bleed | .trim | .art => own.getD crop

namespace Leaf

/-- The nodes in which entries are looked up: the page, then what is above it. -/
def lineage (leaf : Leaf) : List Dict := leaf.dict :: leaf.ancestors

/-- The nearest entry of a key. -/
def inherited? (lib : Library) (leaf : Leaf) (key : String) : Option Obj :=
  leaf.lineage.findSome? fun d => lib.get? d key

/-- The rectangle that an object is, its numbers read by `number`. -/
def rectOf? {α : Type} [Scalar α] (lib : Library) (number : Float → α) (o : Obj) :
    Option (Rect α) :=
  (lib.numbersOf? o).bind fun xs => Rect.ofList? (xs.map number)

/-- A boundary of a page, its numbers read by `number`. -/
def boundaryBy {α : Type} [Scalar α] (lib : Library) (number : Float → α) (leaf : Leaf)
    (b : Boundary) : Rect α :=
  b.select ((leaf.inherited? lib "MediaBox").bind (rectOf? lib number))
    ((leaf.inherited? lib "CropBox").bind (rectOf? lib number))
    ((lib.get? leaf.dict b.key).bind (rectOf? lib number))

def boundary (lib : Library) (leaf : Leaf) (b : Boundary) : Rect Float :=
  leaf.boundaryBy lib (fun x => x) b

/-- The clockwise turn that a page stores, in degrees. -/
def storedRotation (lib : Library) (leaf : Leaf) : Float :=
  ((leaf.inherited? lib "Rotate").bind Obj.num?).getD 0

/-- The angle by which a page is turned for a viewer. -/
def rotation (lib : Library) (leaf : Leaf) (user : Float) : Float :=
  Frame.totalRotation (leaf.storedRotation lib) user

/-- The resources of a page, its own or those of the nearest node above it. -/
def resources (lib : Library) (leaf : Leaf) : Dict :=
  (leaf.lineage.findSome? lib.resources?).getD []

end Leaf

end PdfScene
