import PdfScene.Error

/-!
# Windows — reading a slice of a shared buffer

A window shows the bytes `start .. start + length` of a buffer and reads them at an absolute
position. Windows of windows share the buffer and its coordinates, so a position means the same
byte in all of them. Reading past the end is an error that moves nothing.
-/

set_option autoImplicit false

namespace PdfScene

/-- A view of a buffer with a reading position, all in absolute offsets. -/
structure Window where
  buffer : Array UInt8
  start : Nat
  length : Nat
  pos : Nat

namespace Window

/-- The window on `length` bytes from `start`, cut down to what the buffer holds. -/
def of (buffer : Array UInt8) (start length : Nat) : Window :=
  let start := min start buffer.size
  ⟨buffer, start, min length (buffer.size - start), start⟩

/-- The offset just after the last byte. -/
def stop (w : Window) : Nat := w.start + w.length

/-- The bytes shown. -/
def toList (w : Window) : Bytes := (w.buffer.extract w.start w.stop).toList

/-- The byte at the position, which stays. -/
def peek (w : Window) : Except Error UInt8 :=
  if w.pos < w.stop then
    match w.buffer[w.pos]? with
    | some b => .ok b
    | none => .error .endOfInput
  else .error .endOfInput

/-- The byte at the position, and the window after it. -/
def get (w : Window) : Except Error (UInt8 × Window) :=
  w.peek.map fun b => (b, { w with pos := w.pos + 1 })

/-- The next `count` bytes, and the window after them. -/
def take (w : Window) (count : Nat) : Except Error (Bytes × Window) :=
  if w.pos + count ≤ w.stop then
    .ok ((w.buffer.extract w.pos (w.pos + count)).toList, { w with pos := w.pos + count })
  else .error .endOfInput

/-- The window read from `pos` on. The end itself is a position. -/
def seek (w : Window) (pos : Nat) : Except Error Window :=
  if w.start ≤ pos ∧ pos ≤ w.stop then .ok { w with pos } else .error (.position pos w.length)

/-- The window read from `count` bytes further on. -/
def skip (w : Window) (count : Nat) : Except Error Window := w.seek (w.pos + count)

def rewind (w : Window) : Window := { w with pos := w.start }

/-- The window on `length` bytes from `start`, which have to lie inside this one. -/
def sub (w : Window) (start length : Nat) : Except Error Window :=
  if w.start ≤ start ∧ start + length ≤ w.stop then .ok (of w.buffer start length)
  else .error (.byteRange start (start + length))

end Window

end PdfScene
