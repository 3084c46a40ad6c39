import PdfScene.Color.Read

/-!
# Images

An image is a stream of samples with a dictionary that says how they are packed. Images of no size,
or of more pixels than anyone would paint, are refused before their samples are looked at.
-/

set_option autoImplicit false

namespace PdfScene

/-- An image that can be painted. -/
structure Image where
  /-- The number of its object, or one issued for it. -/
  id : UInt32
  ref : Option ObjRef
  width : Nat
  height : Nat
  /-- Bits of a sample. -/
  bits : Nat
  /-- The colour space of the samples; a stencil has none. -/
  space : Option ColorSpace
  stencil : Bool
  /-- The ranges that samples span, if the image states them. -/
  ranges : Option (List Float)
  interpolate : Bool
  stream : StreamObj

namespace Image

/-- The most pixels that are decoded. -/
def pixelLimit : Nat := Nat.pow 2 26

/-- The greatest width or height. -/
def sideLimit : Int := 0x100000000

/-- Refuses sizes that cannot be painted. -/
def checkSize (width height : Int) : Except Error Unit :=
  if width ≤ 0 ∨ height ≤ 0 then .error (.object (.imageSize width height))
  else if sideLimit ≤ width then .error (.decode "image" .widthOutOfRange)
  else if sideLimit ≤ height then .error (.decode "image" .heightOutOfRange)
  else if (pixelLimit : Int) < width * height then
    .error (.decode "image" (.pixelLimit width.toNat height.toNat))
  else .ok ()

/-- Reads the colour space of an image. A name may be that of a resource, which `named` looks up;
samples in no known space are gray. -/
def readSpace (lib : Library) (d : Dict) (named : String → Run (Option ColorSpace)) :
    Run ColorSpace := do
  let space ←
    match lib.get? d "ColorSpace" with
    | some (.name name) =>
      match ColorSpace.ofDeviceName? name with
      | some space => pure (some space)
      | none =>
        match ← named name with
        | some space => pure (some space)
        | none => pure (ColorSpace.ofName? name)
    | some o => ColorSpace.read lib o
    | none => pure none
  pure (space.getD .deviceGray)

/-- The bits of a sample: one for a stencil, and eight unless the image states another width that
there is. -/
def readBits (lib : Library) (d : Dict) (stencil : Bool) : Nat :=
  if stencil then 1
  else
    match lib.int? d "BitsPerComponent" with
    | some n => if n = 1 ∨ n = 2 ∨ n = 4 ∨ n = 16 then n.toNat else 8
    | none => 8

def read (lib : Library) (s : StreamObj) (named : String → Run (Option ColorSpace)) :
    Run (Except Error Image) := do
  let width := (lib.int? s.dict "Width").getD 0
  let height := (lib.int? s.dict "Height").getD 0
  match checkSize width height with
  | .error e => pure (.error e)
  | .ok () =>
    let stencil := (lib.bool? s.dict "ImageMask").getD false
    let space ← if stencil then pure none else some <$> readSpace lib s.dict named
    let id ←
      match s.ref with
      | some r => pure r.num
      | none => Memory.issueId
    pure (.ok
      { id
        ref := s.ref
        width := width.toNat
        height := height.toNat
        bits := readBits lib s.dict stencil
        space
        stencil
        ranges := lib.numbers? s.dict "Decode"
        interpolate := (lib.bool? s.dict "Interpolate").getD false
        stream := s })

/-- The samples as they are packed, with the codec that is left to undo. -/
def data (lib : Library) (image : Image) : Run (Except Error Decoded) :=
  Memory.decode lib.inflate image.stream

end Image

end PdfScene
