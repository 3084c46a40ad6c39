import PdfScene.Image.Basic

/-!
# Pixels

Samples are packed most significant bit first, row by row, each row in whole bytes. Each sample is
brought into the range of its component, and the components of a pixel are turned into a colour.
Data that ends early is completed with zeros, unless too much of it is missing. A stencil paints
where its samples are closer to zero. A colour that asks for a component that there is not is a panic.

The pixels of JPEG data are those that its reader finds, whatever the image says of them.
-/

set_option autoImplicit false

namespace PdfScene

/-- Pixels of four bytes each: red, green, blue and alpha. -/
structure Pixels where
  width : Nat
  height : Nat
  rgba : Array UInt8

namespace Jpeg

def channels (jpeg : Jpeg) (samples : Array UInt8) : Nat :=
  max 1 (samples.size / max 1 (jpeg.width * jpeg.height))

/-- The four bytes of a pixel: gray, or red, green and blue, and alpha if there is one. -/
def pixel : List UInt8 → List UInt8
  | [] => []
  | [gray] => [gray, gray, gray, 255]
  | [gray, alpha] => [gray, gray, gray, alpha]
  | [red, green, blue] => [red, green, blue, 255]
  | red :: green :: blue :: alpha :: _ => [red, green, blue, alpha]

/-- The pixels of all channels. A last one that lacks some is left out. -/
def unpack (jpeg : Jpeg) (samples : Array UInt8) : Array UInt8 :=
  let channels := jpeg.channels samples
  Nat.fold (samples.size / channels)
    (fun i _ rgba =>
      rgba ++ pixel (samples.extract (i * channels) ((i + 1) * channels)).toList) #[]

/-- The pixels of a picture, if there are not too many and they can be decoded. -/
def pixels (jpeg : Jpeg) : Except Error Pixels :=
  if Image.pixelLimit < jpeg.width * jpeg.height then
    .error (.decode "image" (.pixelLimit jpeg.width jpeg.height))
  else
    match jpeg.samples with
    | none => .error (.decode "DCTDecode" .notJpeg)
    | some samples => .ok ⟨jpeg.width, jpeg.height, jpeg.unpack samples⟩

end Jpeg

namespace Image

/-- The most bytes that may be missing. -/
def paddingLimit : Nat := Nat.pow 2 20

def components (image : Image) : Nat :=
  match image.space with
  | some space => max 1 space.components
  | none => 1

def rowBytes (image : Image) : Nat := (image.width * (image.components * image.bits) + 7) / 8

/-- The ranges of the components. Those that the image states have to be enough. -/
def sampleRanges (image : Image) : List Float :=
  let default :=
    match image.space with
    | some space => space.defaultDecode image.bits
    | none => [0, 1]
  match image.ranges with
  | some ranges => if default.length ≤ ranges.length then ranges else default
  | none => default

/-- The sample of `bits` bits that starts `bit` bits after the byte at `row`. One of less than a byte
does not run on into the next. Bytes past the end are zero. -/
def sample? (data : Array UInt8) (row bit bits : Nat) : Option Nat :=
  let byte (i : Nat) : Nat := (data.getD (row + i) 0).toNat
  if bits = 8 then some (byte (bit / 8))
  else if bits = 16 then some (byte (bit / 8) * 256 + byte (bit / 8 + 1))
  else if bits + bit % 8 ≤ 8 then
    some (byte (bit / 8) / Nat.pow 2 (8 - bits - bit % 8) % Nat.pow 2 bits)
  else none

/-- The sample of a component of the pixel in a row and column. -/
def sampleAt? (image : Image) (data : Array UInt8) (row column c : Nat) : Option Nat :=
  sample? data (row * image.rowBytes) ((column * image.components + c) * image.bits) image.bits

/-- A sample of `bits` bits brought into a range. -/
def scaled (sample bits : Nat) (low high : Float) : Float :=
  low + Float.ofNat sample * (high - low) / Float.ofNat (Nat.pow 2 bits - 1)

/-- The components of the pixel in a row and column. -/
def values? (image : Image) (ranges : Array Float) (data : Array UInt8) (row column : Nat) :
    Option (List Float) :=
  (List.range image.components).mapM fun c => do
    let sample ← image.sampleAt? data row column c
    let low ← ranges[2 * c]?
    let high ← ranges[2 * c + 1]?
    some (scaled sample image.bits low high)

/-- The four bytes that some components make. -/
def shade? (image : Image) (values : List Float) : Option (List UInt8) :=
  match image.space with
  | some space => (space.toColor? values).map Color.rgba
  | none => (values[0]?).map fun value => [0, 0, 0, if value < 0.5 then 255 else 0]

/-- The four bytes of the pixel in a row and column. -/
def pixel? (image : Image) (ranges : Array Float) (data : Array UInt8) (row column : Nat) :
    Option (List UInt8) :=
  (image.values? ranges data row column).bind image.shade?

/-- The pixels of unpacked data, row by row, if all of them have a colour. -/
def unpack? (image : Image) (data : Array UInt8) : Option (Array UInt8) :=
  let ranges := image.sampleRanges.toArray
  Nat.fold (image.width * image.height)
    (fun i _ rgba => do
      let rgba ← rgba
      let pixel ← image.pixel? ranges data (i / image.width) (i % image.width)
      some (rgba ++ pixel)) (some #[])

def decodeSamples (image : Image) (data : Bytes) : Except Error Pixels :=
  let expected := image.rowBytes * image.height
  let found := data.length
  if paddingLimit < expected - found then
    .error (.decode "image" (.missingSamples image.id.toNat found expected))
  else
    match image.unpack? data.toArray with
    | some rgba => .ok ⟨image.width, image.height, rgba⟩
    | none => .error (.panic .missingComponent)

/-- Turns the data of an image into pixels, if its codec is known. A JPEG image that cannot be read
is a fault; other codecs leave the image without pixels. -/
def pixels? (image : Image) (data : Decoded) (reader : JpegReader := .none) :
    Except Error (Option Pixels) :=
  match data.codec with
  | none => (image.decodeSamples data.data).map some
  | some .dct =>
    match reader data.data with
    | none => .error (.decode "DCTDecode" .notJpeg)
    | some jpeg => jpeg.pixels.map some
  | some _ => .ok none

end Image

end PdfScene
