import PdfScene.Number.Scalar

/-!
# Device colours

A colour as a device takes it: a gray, three lights or four inks, each nominally between zero and
one. Its bytes are what it looks like on a screen; inks are turned into light by subtraction.
-/

set_option autoImplicit false

namespace PdfScene

/-- A number brought between zero and one. What is no number stays so. -/
def clampUnit (x : Float) : Float := if x < 0 then 0 else if 1 < x then 1 else x

inductive Color where
  | gray (g : Float)
  | rgb (r g b : Float)
  | cmyk (c m y k : Float)
  deriving Inhabited

namespace Color

def black : Color := gray 0

def white : Color := gray 1

def byte (x : Float) : UInt8 := (clampUnit x * 255).round.toUInt8

/-- Red, green, blue and an opaque alpha. -/
def rgba : Color → List UInt8
  | gray g => [byte g, byte g, byte g, 255]
  | rgb r g b => [byte r, byte g, byte b, 255]
  | cmyk c m y k =>
    let light := 1 - clampUnit k
    let component (ink : Float) : UInt8 := byte ((1 - clampUnit ink) * light)
    [component c, component m, component y, 255]

/-- The colour of a point of the CIE L*a*b* space under daylight. -/
def ofLab (l a b : Float) : Color :=
  let fy := (l + 16) / 116
  let fx := fy + a / 500
  let fz := fy - b / 200
  let edge : Float := 6.0 / 29.0
  let inverse (t : Float) : Float :=
    if edge < t then t * t * t else 3 * (edge * edge) * (t - 4.0 / 29.0)
  let x := 0.9505 * inverse fx
  let y := inverse fy
  let z := 1.089 * inverse fz
  let r := 3.2406 * x - 1.5372 * y - 0.4986 * z
  let g := -0.9689 * x + 1.8758 * y + 0.0415 * z
  let b := 0.0557 * x - 0.2040 * y + 1.0570 * z
  let gamma (v : Float) : Float :=
    let v := clampUnit v
    if v ≤ 0.0031308 then 12.92 * v else 1.055 * v.pow (1.0 / 2.4) - 0.055
  rgb (gamma r) (gamma g) (gamma b)

end Color

end PdfScene
