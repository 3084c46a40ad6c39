import PdfScene.Content.Operands

/-!
# Paths in content

Content builds a path one segment at a time, may ask that painting be confined to it, and ends it by
painting it or by leaving it unpainted. Operators that do the first are known to
`Operation.segment?`, the second to `Operator.clipRule?`, the third to `Operator.pathUse?`.
-/

set_option autoImplicit false

namespace PdfScene

/-- The path after a segment; none if the operator adds none. -/
def Operation.segment? (o : Operation) (p : Path) : Option (Except OperandFault Path) :=
  match o.op with
  | .moveTo => some do pure (p.moveTo (← o.point 0))
  | .lineTo => some do pure (p.lineTo (← o.point 0))
  | .curveTo => some do pure (p.curveTo (← o.point 0) (← o.point 2) (← o.point 4))
  | .curveFromCurrent =>
    some do
      let c2 ← o.point 0
      pure (p.curveTo (p.current.getD c2) c2 (← o.point 2))
  | .curveToEnd =>
    some do
      let c1 ← o.point 0
      let stop ← o.point 2
      pure (p.curveTo c1 stop stop)
  | .closePath => some (.ok p.close)
  | .rectangle =>
    some do
      let (x, y) ← o.point 0
      let (width, height) ← o.point 2
      pure (p.rect x y width height)
  | _ => none

/-- How a path is painted when it ends. -/
structure PathUse where
  close : Bool
  fill : Option FillRule
  stroke : Bool
  deriving DecidableEq, Repr

/-- How an operator that ends a path paints it. -/
def Operator.pathUse? : Operator → Option PathUse
  | stroke => some ⟨false, none, true⟩
  | closeStroke => some ⟨true, none, true⟩
  | fill => some ⟨false, some .nonZero, false⟩
  | fillEvenOdd => some ⟨false, some .evenOdd, false⟩
  | fillStroke => some ⟨false, some .nonZero, true⟩
  | fillStrokeEvenOdd => some ⟨false, some .evenOdd, true⟩
  | closeFillStroke => some ⟨true, some .nonZero, true⟩
  | closeFillStrokeEvenOdd => some ⟨true, some .evenOdd, true⟩
  | endPath => some ⟨false, none, false⟩
  | _ => none

/-- The region that an operator confines painting to once the path has been painted. -/
def Operator.clipRule? : Operator → Option FillRule
  | clip => some .nonZero
  | clipEvenOdd => some .evenOdd
  | _ => none

end PdfScene
