import PdfScene.Lexical.Raw

/-!
# Cursors — tokens with positions

A cursor is a place in a piece of input. It knows the absolute offset at which the piece starts,
so that positions and error reports mean the same byte in every piece of one file. Reading moves
it forward; `Cursor.seek` moves it to any position of the piece.
-/

set_option autoImplicit false

namespace PdfScene

/-- A place in a piece of input. -/
structure Cursor where
  /-- The whole piece. -/
  source : Bytes
  /-- The absolute offset of its first byte. -/
  origin : Nat
  /-- What follows the cursor. -/
  rest : Bytes

namespace Cursor

def ofBytes (source : Bytes) (origin : Nat) : Cursor := ⟨source, origin, source⟩

/-- The absolute offset just after the piece. -/
def stop (c : Cursor) : Nat := c.origin + c.source.length

/-- The absolute offset of the cursor: the end less what is left. -/
def position (c : Cursor) : Nat := c.stop - c.rest.length

/-- The cursor at an absolute offset. -/
def seek (c : Cursor) (pos : Nat) : Except Error Cursor :=
  if c.origin ≤ pos ∧ pos ≤ c.stop then .ok { c with rest := c.source.drop (pos - c.origin) }
  else .error (.position pos c.source.length)

/-- The next token, and the cursor after it. A malformed token is reported where it starts. -/
def next (c : Cursor) : Except Error Token × Cursor :=
  let start := c.stop - (Token.skipBlanks false c.rest).length
  let (result, rest) := Token.scan c.rest
  (result.mapError (.token start), { c with rest })

/-- A well-formed token is what a scan of the rest finds. -/
theorem next_of_scan {c : Cursor} {t : Token} {rest : Bytes} (h : Token.scan c.rest = (.ok t, rest)) :
    c.next = (.ok t, { c with rest }) := by
  rw [next, h]
  rfl

/-- The samples of an inline image whose `ID` has been read. -/
def inlineData (c : Cursor) : Bytes × Cursor :=
  let (data, rest) := InlineData.scan c.rest
  (data, { c with rest })

/-- The body of a stream whose keyword has been read. -/
def streamBody (c : Cursor) (length : Option Nat) : Except Panic (Bytes × Cursor) :=
  (StreamBody.scan length c.rest).map fun (data, rest) => (data, { c with rest })

end Cursor

end PdfScene
