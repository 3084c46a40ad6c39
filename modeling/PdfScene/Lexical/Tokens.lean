import PdfScene.Lexical.Token

/-!
# All tokens of a piece of input

Readers that care for no position and no damage take the well-formed tokens of their input as a
list.
-/

set_option autoImplicit false

namespace PdfScene.Token

/-- The well-formed tokens of `bs`, after those in `done`. -/
def readFrom (done : Array Token) (bs : Bytes) : Array Token :=
  match _h : scan bs with
  | (.error _, rest) => readFrom done rest
  | (.ok t, rest) => if _ht : t matches .eof then done else readFrom (done.push t) rest
termination_by bs.length
decreasing_by
  · exact scan_progress _h nofun
  · exact scan_progress _h (by rintro ⟨⟩; exact _ht rfl)

/-- The well-formed tokens of a piece of input. -/
def readAll (bs : Bytes) : List Token := (readFrom #[] bs).toList

end PdfScene.Token
