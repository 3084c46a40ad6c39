import PdfScene.Bytes

/-!
# JPEG data

JPEG data is read by a reader that is called on for it. All that is known of it here is what it
answers with: the size of the picture, and the channels of its pixels, which it may fail to decode
after it has found the size. What becomes of its answer is said where the pixels are.
-/

set_option autoImplicit false

namespace PdfScene

/-- What a reader finds in JPEG data. -/
structure Jpeg where
  width : Nat
  height : Nat
  /-- The channels of all pixels, row by row, if they can be decoded. -/
  samples : Option (Array UInt8)

/-- What reads JPEG data, if it is any. -/
abbrev JpegReader := Bytes → Option Jpeg

/-- The reader for which no data is JPEG data. -/
def JpegReader.none : JpegReader := fun _ => Option.none

end PdfScene
