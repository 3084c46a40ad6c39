import PdfScene.Error

/-!
# FlateDecode

Zlib data is read by a reader that is called on for it. It hands over bytes as it comes to them, and
may stop before the end of the data, for a reason of its own. What it has handed over by then is kept,
as data that breaks off is better than none.
-/

set_option autoImplicit false

namespace PdfScene

/-- What reads zlib data: the bytes that it hands over, and why it stops early, if it does. -/
abbrev Inflater := Bytes → Bytes × Option String

/-- The reader that comes to nothing. -/
def Inflater.none : Inflater := fun _ => ([], some "no reader of zlib data")

/-- Decodes zlib data, as far as its reader comes. -/
def Flate.decode (inflate : Inflater) (data : Bytes) : Except DecodeFault Bytes :=
  match inflate data with
  | (decoded, .none) => .ok decoded
  | (decoded, some reason) => if decoded.isEmpty then .error (.zlib reason) else .ok decoded

end PdfScene
