import PdfScene.Graphics.State

/-!
# Graphics state parameters

A dictionary of parameters sets part of the graphics state at once. What it does not name stays as
it is.
-/

set_option autoImplicit false

namespace PdfScene

/-- The parameters that a dictionary names. -/
structure Parameters where
  lineWidth : Option Float
  lineCap : Option LineCap
  lineJoin : Option LineJoin
  miterLimit : Option Float
  dash : Option (List Float × Float)
  strokeAlpha : Option Float
  fillAlpha : Option Float
  blend : Option BlendMode
  font : Option (Font × Float)

namespace Parameters

/-- A list of dashes and where it starts. -/
def readDash (lib : Library) (d : Dict) : Option (List Float × Float) :=
  match lib.array? d "D" with
  | some (dashes :: offset :: _) =>
    match lib.numbersOf? dashes, (lib.resolve offset).num? with
    | some dashes, some offset => some (dashes, offset)
    | _, _ => none
  | _ => none

/-- A blend mode, or the first known one of a list. -/
def readBlend (lib : Library) (d : Dict) : Option BlendMode :=
  (lib.get? d "BM").bind fun o =>
    match o.array? with
    | some names =>
      (names.filterMap fun name => (lib.resolve name).name?).findSome? BlendMode.ofName?
    | none => o.name?.bind BlendMode.ofName?

/-- The name of a font that is given by reference. -/
def fontName (o : Obj) : String :=
  match o.ref? with
  | some r => toString r.num ++ " " ++ toString r.generation ++ " R"
  | none => ""

/-- A font and its size. -/
def readFont (lib : Library) (d : Dict) : Run (Option (Font × Float)) := do
  match lib.array? d "Font" with
  | some (font :: size :: _) =>
    match (lib.resolve font).dict?, (lib.resolve size).num? with
    | some d, some size => pure (some (← Font.read lib (fontName font) d, size))
    | _, _ => pure none
  | _ => pure none

def read (lib : Library) (d : Dict) : Run Parameters := do
  let font ← readFont lib d
  pure
    { lineWidth := lib.num? d "LW"
      lineCap := (lib.int? d "LC").bind LineCap.ofNumber?
      lineJoin := (lib.int? d "LJ").bind LineJoin.ofNumber?
      miterLimit := lib.num? d "ML"
      dash := readDash lib d
      strokeAlpha := lib.num? d "CA"
      fillAlpha := lib.num? d "ca"
      blend := readBlend lib d
      font }

/-- The state of text with the font that is named, if one is. -/
def applyFont (p : Parameters) (t : TextState) : TextState :=
  match p.font with
  | some (font, size) => { t with font := some font, fontName := some font.name, size }
  | none => t

/-- The state with all that is named. Opacities are brought between zero and one. -/
def apply (p : Parameters) (s : GraphicsState) : GraphicsState :=
  { s with
    line :=
      { width := p.lineWidth.getD s.line.width
        cap := p.lineCap.getD s.line.cap
        join := p.lineJoin.getD s.line.join
        miterLimit := p.miterLimit.getD s.line.miterLimit
        dashes := (p.dash.map Prod.fst).getD s.line.dashes
        dashOffset := (p.dash.map Prod.snd).getD s.line.dashOffset }
    strokeAlpha := (p.strokeAlpha.map clampUnit).getD s.strokeAlpha
    fillAlpha := (p.fillAlpha.map clampUnit).getD s.fillAlpha
    blend := p.blend.getD s.blend
    text := p.applyFont s.text }

end Parameters

end PdfScene
