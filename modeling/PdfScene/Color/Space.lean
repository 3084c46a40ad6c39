import PdfScene.Color.Basic
import PdfScene.Error

/-!
# Colour spaces

A colour space says how many numbers make a colour and which device colour they make. Conversion is
approximate: calibrated spaces count as their device counterparts, a profile as the space it names or
the one with as many components, and spaces of named inks as how much ink there is.

Conversion looks its operands up by their places. Where one is asked for that there is not, it comes to
no colour, which is a panic wherever a colour is needed.
-/

set_option autoImplicit false

namespace PdfScene

inductive ColorSpace where
  | deviceGray
  | deviceRgb
  | deviceCmyk
  | calGray
  | calRgb
  /-- The ranges of the two chromatic axes. -/
  | lab (minA maxA minB maxB : Float)
  /-- A profile, by its number of components and the space that stands in for it. -/
  | icc (components : Nat) (alternate : ColorSpace)
  /-- Colours of a base space, packed in a table up to a last index. -/
  | indexed (base : ColorSpace) (last : Nat) (table : Array UInt8)
  | separation (ink : String) (alternate : ColorSpace)
  | deviceN (components : Nat) (alternate : ColorSpace)
  /-- Patterns that bring their own colours. -/
  | pattern
  /-- Patterns that are stencils for a colour of another space. -/
  | stencil (underlying : ColorSpace)
  deriving Inhabited

namespace ColorSpace

/-- The space that a bare name, full or short, stands for by itself. -/
def ofDeviceName? (name : String) : Option ColorSpace :=
  if name = "DeviceGray" ∨ name = "G" then some deviceGray
  else if name = "DeviceRGB" ∨ name = "RGB" then some deviceRgb
  else if name = "DeviceCMYK" ∨ name = "CMYK" then some deviceCmyk
  else if name = "Pattern" then some pattern
  else none

/-- The calibrated space that a bare name stands for. -/
def ofCalibratedName? (name : String) : Option ColorSpace :=
  if name = "CalGray" then some calGray else if name = "CalRGB" then some calRgb else none

/-- The device space with a number of components. -/
def ofComponents (components : Nat) : ColorSpace :=
  if components = 1 then deviceGray else if components = 4 then deviceCmyk else deviceRgb

def components : ColorSpace → Nat
  | deviceGray | calGray | indexed _ _ _ | separation _ _ => 1
  | deviceRgb | calRgb | lab _ _ _ _ => 3
  | deviceCmyk => 4
  | icc components _ => components
  | deviceN components _ => components
  | pattern => 0
  | stencil underlying => underlying.components

/-- How much ink there is: the most of any one. -/
def coverage (c : List Float) : Float := c.foldl (fun most x => floatGreater most (clampUnit x)) 0

/-- The index that an operand selects: the nearest whole number within the table. -/
def index (x : Float) (last : Nat) : Nat := min (floatGreater x.round 0).toUInt64.toNat last

/-- The value of an axis, brought into its range. -/
def bring (x low high : Float) : Float := floatLesser (floatGreater x low) high

/-- The range that each component of an image's samples spans, unless the image says otherwise. -/
def defaultDecode (space : ColorSpace) (bits : Nat) : List Float :=
  match space with
  | indexed _ _ _ => [0, Float.ofNat (Nat.pow 2 bits - 1)]
  | lab minA maxA minB maxB => [0, 100, minA, maxA, minB, maxB]
  | _ => (List.replicate (max 1 space.components) [0, 1]).flatten

/-- The components in an entry of a table, if all of its bytes are there. -/
def slice? (table : Array UInt8) (start n : Nat) : Option (List Float) :=
  (List.range n).mapM fun i => (table[start + i]?).map fun b => Float.ofNat b.toNat / 255

mutual

/-- The colour that operands make, unless one is asked for that there is not. -/
def convert? (space : ColorSpace) (cs : List Float) : Option Color :=
  match space with
  | deviceGray | calGray => do
    let g ← cs[0]?
    some (.gray g)
  | deviceRgb | calRgb => do
    let r ← cs[0]?
    let g ← cs[1]?
    let b ← cs[2]?
    some (.rgb r g b)
  | deviceCmyk => do
    let c₀ ← cs[0]?
    let m ← cs[1]?
    let y ← cs[2]?
    let k ← cs[3]?
    some (.cmyk c₀ m y k)
  | lab minA maxA minB maxB => do
    let l ← cs[0]?
    let a ← cs[1]?
    let b ← cs[2]?
    some (.ofLab l (bring a minA maxA) (bring b minB maxB))
  | icc _ alternate => alternate.convert? cs
  | indexed base last table => do
    let x ← cs[0]?
    let n := base.components
    let start := index x last * n
    if start + n ≤ table.size then
      let entry ← slice? table start n
      base.convert? entry
    else base.initialColor?
  | separation _ _ => do
    let tint ← cs[0]?
    some (.gray (1 - clampUnit tint))
  | deviceN _ _ => some (.gray (1 - coverage cs))
  | pattern => some .black
  | stencil underlying => underlying.convert? cs

/-- The colour of a space that no operands have been given for, unless a byte of a table is asked for
that there is not. -/
def initialColor? (space : ColorSpace) : Option Color :=
  match space with
  | deviceCmyk => some (.cmyk 0 0 0 1)
  | deviceRgb | calRgb => some (.rgb 0 0 0)
  | lab minA maxA minB maxB => some (.ofLab 0 (bring 0 minA maxA) (bring 0 minB maxB))
  | icc _ alternate => alternate.initialColor?
  | indexed base last table =>
    let n := base.components
    let start := index 0 last * n
    if start + n ≤ table.size then do
      let entry ← slice? table start n
      base.convert? entry
    else base.initialColor?
  | separation _ _ => some (.gray 0)
  | deviceN components _ => some (.gray (1 - coverage (List.replicate components 1)))
  | _ => some .black

end

/-- The colour that operands make, however many there are, unless one is asked for that there is
not. -/
def toColor? (space : ColorSpace) (cs : List Float) : Option Color :=
  if cs.length = space.components then space.convert? cs else space.initialColor?

/-- A colour, or the panic of asking for a component that there is not. -/
def orPanic (color : Option Color) : Except Panic Color :=
  color.elim (.error .missingComponent) .ok

/-- The spaces of devices themselves. -/
inductive Device : ColorSpace → Prop where
  | gray : Device deviceGray
  | rgb : Device deviceRgb
  | cmyk : Device deviceCmyk

/-- They ask for no operand that there is not. -/
theorem Device.isSome_toColor? {space : ColorSpace} (h : space.Device) (cs : List Float) :
    (space.toColor? cs).isSome := by
  unfold toColor?
  split
  · rename_i hlength
    cases h with
    | gray =>
      match cs, hlength with
      | [_], _ => rfl
    | rgb =>
      match cs, hlength with
      | [_, _, _], _ => rfl
    | cmyk =>
      match cs, hlength with
      | [_, _, _, _], _ => rfl
  · cases h <;> rfl

/-- The colour of a device space. -/
def Device.color {space : ColorSpace} (h : space.Device) (cs : List Float) : Color :=
  (space.toColor? cs).get (h.isSome_toColor? cs)

end ColorSpace

end PdfScene
