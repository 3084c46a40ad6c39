import PdfScene.Color.Space
import PdfScene.Store.Memory

/-!
# Reading colour spaces

A colour space is written as a name or as an array that opens with the name of its family. Spaces are
built from other spaces, to a limited depth. What cannot be read is no colour space; where another
space is only to stand in, a device space does so instead.
-/

set_option autoImplicit false

namespace PdfScene.ColorSpace

/-- How deep spaces may be built from one another. -/
def nestingLimit : Nat := 8

/-- A space by its name alone. -/
def ofName? (name : String) : Option ColorSpace :=
  (ofDeviceName? name).or (ofCalibratedName? name)

/-- The profile of a dictionary. The number of components it states counts, then that of its
alternate, and an alternate with another number of components does not. -/
def ofProfile (declared : Option Int) (alternate : Option ColorSpace) : ColorSpace :=
  let components :=
    match declared, alternate with
    | some n, _ => (max 1 (min 4 n)).toNat
    | none, some a => a.components
    | none, none => 3
  match alternate with
  | some a => icc components (if a.components = components then a else ofComponents components)
  | none => icc components (ofComponents components)

/-- The table of an indexed space, written as a stream or a string. -/
def readTable (lib : Library) (o : Obj) : Run (Option (Array UInt8)) := do
  match o.stream? with
  | some s =>
    match ← Memory.decode lib.inflate s with
    | .ok d => pure (some d.data.toArray)
    | .error _ => pure none
  | none => pure (o.bytes?.map List.toArray)

/-- The space of a family with the parameters after its name; `nested` reads a space among them. -/
def readFamily (lib : Library) (nested : Obj → Run (Option ColorSpace)) (family : String)
    (params : List Obj) : Run (Option ColorSpace) := do
  let param (i : Nat) : Option Obj := (params[i]?).map lib.resolve
  let space (i : Nat) : Run (Option ColorSpace) :=
    match params[i]? with
    | some o => nested o
    | none => pure none
  match family with
  | "CalGray" => pure (some calGray)
  | "CalRGB" => pure (some calRgb)
  | "Lab" =>
    match ((param 0).bind Obj.dict?).bind fun d => lib.four? d "Range" with
    | some (minA, maxA, minB, maxB) => pure (some (lab minA maxA minB maxB))
    | none => pure (some (lab (-100) 100 (-100) 100))
  | "ICCBased" =>
    match (param 0).bind Obj.dict? with
    | none => pure none
    | some d =>
      let alternate ←
        match lib.get? d "Alternate" with
        | some o => nested o
        | none => pure none
      pure (some (ofProfile (lib.int? d "N") alternate))
  | "Indexed" | "I" =>
    match ← space 0 with
    | none => pure none
    | some base =>
      match (param 1).bind Obj.int?, param 2 with
      | some last, some o =>
        match ← readTable lib o with
        | some table => pure (some (indexed base (max 0 (min 255 last)).toNat table))
        | none => pure none
      | _, _ => pure none
  | "Separation" =>
    match param 0 with
    | none => pure none
    | some ink =>
      pure (some (separation (ink.name?.getD "") ((← space 1).getD deviceGray)))
  | "DeviceN" =>
    match (param 0).bind Obj.array? with
    | none => pure none
    | some inks => pure (some (deviceN (max 1 inks.length) ((← space 1).getD deviceGray)))
  | "Pattern" =>
    match ← space 0 with
    | some underlying => pure (some (stencil underlying))
    | none => pure (some pattern)
  | _ => pure (ofDeviceName? family)

/-- Reads a space that may be built from others `room` deep, itself included. -/
def readWithin (lib : Library) : Nat → Obj → Run (Option ColorSpace)
  | 0, _ => pure none
  | room + 1, o =>
    match lib.resolve o with
    | .name name => pure (ofName? name)
    | .array (first :: params) =>
      match (lib.resolve first).name? with
      | some family => readFamily lib (readWithin lib room) family params
      | none => pure none
    | _ => pure none

def read (lib : Library) (o : Obj) : Run (Option ColorSpace) := readWithin lib (nestingLimit + 1) o

end PdfScene.ColorSpace
