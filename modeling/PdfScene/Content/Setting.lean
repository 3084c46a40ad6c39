import PdfScene.Content.Operands
import PdfScene.Graphics.State

/-!
# Settings — operators that change the graphics state alone

What these operators do depends on their operands and on the state, and on nothing else: no
resource, no path, no mode. `Operation.setting?` is the new state, or the reason why there is none.
Operators that it does not know need more than the state and are carried out elsewhere.

A setting that is rejected leaves the state as it was, with one exception: the dashes of a line are
set before the number that says where they start is looked at, so `Operation.dashes` answers with a
state also where that number is missing.
-/

set_option autoImplicit false

namespace PdfScene

namespace GraphicsState

/-- The state with a colour of a device space to outline in. -/
def withStroke (s : GraphicsState) (space : ColorSpace) (paint : Paint) : GraphicsState :=
  { s with strokeSpace := space, strokePaint := paint }

/-- The state with a colour of a device space to fill with. -/
def withFill (s : GraphicsState) (space : ColorSpace) (paint : Paint) : GraphicsState :=
  { s with fillSpace := space, fillPaint := paint }

end GraphicsState

namespace Operation

/-- The state with another way to draw lines. -/
def line (s : GraphicsState) (f : LineStyle → Except OperandFault LineStyle) :
    Except OperandFault GraphicsState := do
  let line ← f s.line
  pure { s with line }

/-- The state with another way to show text. -/
def text (s : GraphicsState) (f : TextState → Except OperandFault TextState) :
    Except OperandFault GraphicsState := do
  let text ← f s.text
  pure { s with text }

/-- The colour of a device space that all operands make. -/
def deviceColor (o : Operation) {space : ColorSpace} (h : space.Device) :
    Except OperandFault Paint := do
  pure (.solid (h.color (← o.nums)))

/-- The state after a setting; none if the operator is no setting. -/
def setting? (o : Operation) (s : GraphicsState) : Option (Except OperandFault GraphicsState) :=
  match o.op with
  | .transform => some do pure (s.concat (← o.matrix))
  | .setLineWidth => some (line s fun l => do pure { l with width := ← o.num 0 })
  | .setLineCap => some (line s fun l => do pure { l with cap := ← o.choice LineCap.ofNumber? })
  | .setLineJoin =>
    some (line s fun l => do pure { l with join := ← o.choice LineJoin.ofNumber? })
  | .setMiterLimit => some (line s fun l => do pure { l with miterLimit := ← o.num 0 })
  | .setCharSpacing => some (text s fun t => do pure { t with charSpacing := ← o.num 0 })
  | .setWordSpacing => some (text s fun t => do pure { t with wordSpacing := ← o.num 0 })
  | .setHorizontalScaling =>
    some (text s fun t => do pure { t with scaling := (← o.num 0) / 100 })
  | .setLeading => some (text s fun t => do pure { t with leading := ← o.num 0 })
  | .setRenderMode =>
    some (text s fun t => do pure { t with mode := ← o.choice TextMode.ofNumber? })
  | .setRise => some (text s fun t => do pure { t with rise := ← o.num 0 })
  | .moveText =>
    some (text s fun t => do
      let (x, y) ← o.point 0
      pure (t.moveLine x y))
  | .moveTextSetLeading =>
    some (text s fun t => do
      let (x, y) ← o.point 0
      pure ({ t with leading := -y }.moveLine x y))
  | .setTextMatrix => some (text s fun t => do pure (t.setMatrix (← o.matrix)))
  | .nextLine => some (text s fun t => .ok t.nextLine)
  | .setStrokeGray => some do pure (s.withStroke .deviceGray (← o.deviceColor .gray))
  | .setFillGray => some do pure (s.withFill .deviceGray (← o.deviceColor .gray))
  | .setStrokeRgb => some do pure (s.withStroke .deviceRgb (← o.deviceColor .rgb))
  | .setFillRgb => some do pure (s.withFill .deviceRgb (← o.deviceColor .rgb))
  | .setStrokeCmyk => some do pure (s.withStroke .deviceCmyk (← o.deviceColor .cmyk))
  | .setFillCmyk => some do pure (s.withFill .deviceCmyk (← o.deviceColor .cmyk))
  | .setIntent | .setFlatness | .glyphWidth | .glyphWidthAndBox | .markPoint | .markPointProps
  | .beginMarked | .beginMarkedProps | .endMarked | .beginCompat | .endCompat => some (.ok s)
  | _ => none

/-- The state with the dashes that the first operand lists, and the reason if they are not a list of
numbers or the second operand does not say where they start. -/
def dashes (o : Operation) (s : GraphicsState) : Option OperandFault × GraphicsState :=
  match o.operand 0 "dash array" Obj.numbers? with
  | .error fault => (some fault, s)
  | .ok dashes =>
    let s := { s with line := { s.line with dashes } }
    match o.num 1 with
    | .error fault => (some fault, s)
    | .ok dashOffset => (none, { s with line := { s.line with dashOffset } })

end Operation

end PdfScene
