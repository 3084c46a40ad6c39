import Mathlib
import PdfScene.Window

/-!
# Calls on a window, with checks

A window is read by calls that move it, and each call computes with words of 64 bits and looks into the
buffer by offsets. `Window.call?` makes it with checks: it has no result where a sum does not fit a word,
or where the buffer has no such bytes. Looking at a byte means to read it and to go back.

For a window that lies in its buffer (`Sound`), and numbers that are far below the size of a word, there
is always a result (`Sound.call?_eq`). A call for which there is room does what it says, and any other one
leaves the window as it was; that is what `Window.get`, `Window.take` and the like give.
-/

set_option autoImplicit false

namespace PdfScene.Window

/-! ## Calls -/

/-- What can be asked of a window. -/
inductive Call where
  | get
  | peek
  | take (count : Nat)
  | seek (pos : Nat)
  | skip (count : Nat)
  | rewind
  | sub (start length : Nat)
  deriving DecidableEq, Repr

inductive Answer where
  | bytes (bs : Bytes)
  | done
  | window (v : Window)

/-- An answer, or the reason why there is none, and the window behind the call. -/
structure Reply where
  answer : Except Error Answer
  window : Window

namespace Call

/-- The numbers that a call is made with. -/
def numbers : Call → List Nat
  | get | peek | rewind => []
  | take count => [count]
  | seek pos => [pos]
  | skip count => [count]
  | sub start length => [start, length]

/-- How many bytes a call asks for. -/
def count : Call → Nat
  | get | peek => 1
  | take count => count
  | _ => 0

/-- Whether the window has room for what is asked. -/
def Fits (w : Window) : Call → Prop
  | get | peek => w.pos < w.stop
  | take count | skip count => w.pos + count ≤ w.stop
  | seek pos => w.start ≤ pos ∧ pos ≤ w.stop
  | rewind => True
  | sub start length => w.start ≤ start ∧ start + length ≤ w.stop

/-- Where a call leads. -/
def target (w : Window) : Call → Nat
  | get => w.pos + 1
  | peek | sub _ _ => w.pos
  | take count | skip count => w.pos + count
  | seek pos => pos
  | rewind => w.start

/-- Small enough for any sum with the size of a buffer to fit a word. -/
def Small (c : Call) : Prop := ∀ n ∈ c.numbers, n < 2 ^ 63

instance (c : Call) : Decidable c.Small := inferInstanceAs (Decidable (∀ n ∈ c.numbers, n < 2 ^ 63))

end Call

/-- What comes of a call that gives an answer and moves the window, or fails and leaves it. -/
def settle (w : Window) : Except Error (Answer × Window) → Reply
  | .ok (answer, w') => ⟨.ok answer, w'⟩
  | .error e => ⟨.error e, w⟩

/-- What the functions on windows give for a call. -/
def reply (w : Window) : Call → Reply
  | .get => w.settle (w.get.map fun (b, w') => (.bytes [b], w'))
  | .peek => w.settle (w.peek.map fun b => (.bytes [b], w))
  | .take count => w.settle ((w.take count).map fun (bs, w') => (.bytes bs, w'))
  | .seek pos => w.settle ((w.seek pos).map fun w' => (.done, w'))
  | .skip count => w.settle ((w.skip count).map fun w' => (.done, w'))
  | .rewind => ⟨.ok .done, w.rewind⟩
  | .sub start length => w.settle ((w.sub start length).map fun v => (.window v, w))

/-! ## Calls with checks -/

/-- A sum that fits a word. -/
def sum? (a b : Nat) : Option Nat := if a + b < 2 ^ 64 then some (a + b) else none

/-- The bytes of the buffer between two offsets. -/
def slice? (w : Window) (first last : Nat) : Option Bytes :=
  if first ≤ last ∧ last ≤ w.buffer.size then some (w.buffer.extract first last).toList else none

def get? (w : Window) : Option Reply := do
  let stop ← sum? w.start w.length
  if stop ≤ w.pos then return ⟨.error .endOfInput, w⟩
  else
    let b ← w.buffer[w.pos]?
    let pos ← sum? w.pos 1
    return ⟨.ok (.bytes [b]), { w with pos }⟩

def seek? (w : Window) (pos : Nat) : Option Reply := do
  let stop ← sum? w.start w.length
  if pos < w.start ∨ stop < pos then return ⟨.error (.position pos w.length), w⟩
  else return ⟨.ok .done, { w with pos }⟩

/-- Reads a byte and goes back to where it was. -/
def peek? (w : Window) : Option Reply := do
  let read ← w.get?
  match read.answer with
  | .error _ => return read
  | .ok _ =>
    let back ← read.window.seek? w.pos
    match back.answer with
    | .error _ => return back
    | .ok _ => return { back with answer := read.answer }

def take? (w : Window) (count : Nat) : Option Reply := do
  let last ← sum? w.pos count
  let stop ← sum? w.start w.length
  if stop < last then return ⟨.error .endOfInput, w⟩
  else
    let bs ← w.slice? w.pos last
    return ⟨.ok (.bytes bs), { w with pos := last }⟩

def skip? (w : Window) (count : Nat) : Option Reply := do
  let pos ← sum? w.pos count
  w.seek? pos

def sub? (w : Window) (start length : Nat) : Option Reply := do
  let last ← sum? start length
  let stop ← sum? w.start w.length
  if start < w.start ∨ stop < last then return ⟨.error (.byteRange start last), w⟩
  else return ⟨.ok (.window (of w.buffer start length)), w⟩

def call? (w : Window) : Call → Option Reply
  | .get => w.get?
  | .peek => w.peek?
  | .take count => w.take? count
  | .seek pos => w.seek? pos
  | .skip count => w.skip? count
  | .rewind => some ⟨.ok .done, w.rewind⟩
  | .sub start length => w.sub? start length

/-! ## Windows that lie in their buffer -/

/-- The window lies in the buffer, and its position in the window. -/
structure Sound (buffer : Array UInt8) (w : Window) : Prop where
  buffer_eq : w.buffer = buffer
  start_le_pos : w.start ≤ w.pos
  pos_le_stop : w.pos ≤ w.stop
  stop_le_size : w.stop ≤ buffer.size

variable {buffer : Array UInt8} {w : Window} {c : Call}

theorem sound_of (buffer : Array UInt8) (start length : Nat) : (of buffer start length).Sound buffer where
  buffer_eq := rfl
  start_le_pos := Nat.le_refl _
  pos_le_stop := Nat.le_add_right _ _
  stop_le_size := by
    show min start buffer.size + min length (buffer.size - min start buffer.size) ≤ buffer.size
    omega

/-- A window that is asked for inside the buffer is not cut down. -/
theorem of_eq {start length : Nat} (h : start + length ≤ buffer.size) :
    of buffer start length = ⟨buffer, start, length, start⟩ := by
  have hstart : min start buffer.size = start := Nat.min_eq_left (by omega)
  rw [of, hstart, Nat.min_eq_left (by omega)]

/-- The bytes of the buffer from the position on. -/
def ahead (w : Window) (count : Nat) : Bytes := (w.buffer.toList.drop w.pos).take count

theorem Sound.length_ahead (h : w.Sound buffer) {count : Nat} (hfits : w.pos + count ≤ w.stop) :
    (w.ahead count).length = count := by
  have hsize := h.stop_le_size
  rw [ahead, List.length_take, List.length_drop, Array.length_toList, h.buffer_eq]
  omega

theorem Sound.getElem?_ahead (h : w.Sound buffer) {count i : Nat} (hi : i < count) :
    (w.ahead count)[i]? = buffer[w.pos + i]? := by
  rw [ahead, List.getElem?_take_of_lt hi, List.getElem?_drop, Array.getElem?_toList, h.buffer_eq]

theorem extract_eq_ahead (w : Window) (count : Nat) :
    (w.buffer.extract w.pos (w.pos + count)).toList = w.ahead count := by
  rw [Array.toList_extract, List.extract_eq_take_drop, Nat.add_sub_cancel_left, ahead]

/-- In front of the end there is a byte. -/
theorem Sound.exists_byte (h : w.Sound buffer) (hfits : w.pos < w.stop) :
    ∃ b, w.buffer[w.pos]? = some b ∧ w.ahead 1 = [b] := by
  have hsize := h.stop_le_size
  have hpos : w.pos < w.buffer.toList.length := by
    rw [Array.length_toList, h.buffer_eq]
    omega
  refine ⟨w.buffer.toList[w.pos], ?_, ?_⟩
  · rw [← Array.getElem?_toList, List.getElem?_eq_getElem hpos]
  · rw [ahead, List.drop_eq_getElem_cons hpos]
    rfl

/-! ## What comes of a call -/

/-- What is answered where there is room. -/
def Call.result (w : Window) : Call → Answer
  | get | peek => .bytes (w.ahead 1)
  | take count => .bytes (w.ahead count)
  | sub start length => .window ⟨w.buffer, start, length, start⟩
  | _ => .done

/-- Why a call is refused where there is none. -/
def Call.fault (w : Window) : Call → Error
  | seek pos => .position pos w.length
  | skip count => .position (w.pos + count) w.length
  | sub start length => .byteRange start (start + length)
  | _ => .endOfInput

def granted (w : Window) (c : Call) : Reply := ⟨.ok (c.result w), { w with pos := c.target w }⟩

def refused (w : Window) (c : Call) : Reply := ⟨.error (c.fault w), w⟩

theorem Sound.reply_of_fits (h : w.Sound buffer) (hfits : c.Fits w) : w.reply c = w.granted c := by
  cases c <;> dsimp only [Call.Fits] at hfits
  case get =>
    obtain ⟨b, hb, hahead⟩ := h.exists_byte hfits
    rw [granted, Call.result, hahead, reply, get, peek, if_pos hfits, hb]
    rfl
  case peek =>
    obtain ⟨b, hb, hahead⟩ := h.exists_byte hfits
    rw [granted, Call.result, hahead, reply, peek, if_pos hfits, hb]
    rfl
  case take count =>
    rw [granted, Call.result, ← extract_eq_ahead, reply, take, if_pos hfits]
    rfl
  case seek pos =>
    rw [reply, seek, if_pos hfits]
    rfl
  case skip count =>
    have hseek : w.start ≤ w.pos + count ∧ w.pos + count ≤ w.stop :=
      ⟨Nat.le_trans h.start_le_pos (Nat.le_add_right _ _), hfits⟩
    rw [reply, skip, seek, if_pos hseek]
    rfl
  case rewind => rfl
  case sub start length =>
    rw [reply, sub, if_pos hfits, of_eq (h.buffer_eq ▸ Nat.le_trans hfits.2 h.stop_le_size)]
    rfl

theorem reply_of_not_fits (hfits : ¬ c.Fits w) : w.reply c = w.refused c := by
  cases c <;> dsimp only [Call.Fits] at hfits
  case get =>
    rw [reply, get, peek, if_neg hfits]
    rfl
  case peek =>
    rw [reply, peek, if_neg hfits]
    rfl
  case take count =>
    rw [reply, take, if_neg hfits]
    rfl
  case seek pos =>
    rw [reply, seek, if_neg hfits]
    rfl
  case skip count =>
    rw [reply, skip, seek, if_neg fun hseek => hfits hseek.2]
    rfl
  case rewind => exact absurd trivial hfits
  case sub start length =>
    rw [reply, sub, if_neg hfits]
    rfl

/-- No call that there is room for leads out of the window. -/
theorem Sound.window_granted (h : w.Sound buffer) (hfits : c.Fits w) :
    (w.granted c).window.Sound buffer := by
  have hstart := h.start_le_pos
  have hstop := h.pos_le_stop
  have htarget : w.start ≤ c.target w ∧ c.target w ≤ w.stop := by
    cases c <;> dsimp only [Call.Fits, Call.target] at hfits ⊢ <;> omega
  exact ⟨h.buffer_eq, htarget.1, htarget.2, h.stop_le_size⟩

/-- **No call leads out of the window.** -/
theorem Sound.window_reply (h : w.Sound buffer) (c : Call) : (w.reply c).window.Sound buffer := by
  by_cases hfits : c.Fits w
  · rw [h.reply_of_fits hfits]
    exact h.window_granted hfits
  · rw [reply_of_not_fits hfits]
    exact h

/-- A call changes nothing but the position. -/
theorem Sound.exists_pos (h : w.Sound buffer) (c : Call) :
    ∃ pos, (w.reply c).window = { w with pos } := by
  by_cases hfits : c.Fits w
  · rw [h.reply_of_fits hfits]
    exact ⟨c.target w, rfl⟩
  · rw [reply_of_not_fits hfits]
    exact ⟨w.pos, rfl⟩

/-- Looking at a byte moves nothing. -/
theorem Sound.window_peek (h : w.Sound buffer) : (w.reply .peek).window = w := by
  by_cases hfits : Call.peek.Fits w
  · rw [h.reply_of_fits hfits]
    rfl
  · rw [reply_of_not_fits hfits]
    rfl

/-- Where there is room for a call there are the bytes that it asks for. -/
theorem Sound.count_le (h : w.Sound buffer) (hfits : c.Fits w) : w.pos + c.count ≤ w.stop := by
  have hstop := h.pos_le_stop
  cases c <;> dsimp only [Call.Fits, Call.count] at hfits ⊢ <;> omega

/-! ## Checks that do not fail -/

theorem sum?_eq {a b : Nat} (h : a + b < 2 ^ 64) : sum? a b = some (a + b) := if_pos h

theorem Sound.sum?_stop (h : w.Sound buffer) (hsize : buffer.size < 2 ^ 63) :
    sum? w.start w.length = some w.stop := by
  have hstop := h.stop_le_size
  rw [stop] at hstop
  exact sum?_eq (by omega)

/-- The position and a small number, too, have a sum. -/
theorem Sound.sum?_pos (h : w.Sound buffer) (hsize : buffer.size < 2 ^ 63) {n : Nat} (hn : n < 2 ^ 63) :
    sum? w.pos n = some (w.pos + n) := by
  have hpos := h.pos_le_stop
  have hstop := h.stop_le_size
  exact sum?_eq (by omega)

theorem Sound.get?_eq (h : w.Sound buffer) (hsize : buffer.size < 2 ^ 63) :
    w.get? = some (w.reply .get) := by
  rw [get?, h.sum?_stop hsize, Option.bind_eq_bind, Option.bind_some]
  by_cases hfits : w.pos < w.stop
  · obtain ⟨b, hb, hahead⟩ := h.exists_byte hfits
    rw [h.reply_of_fits (c := .get) hfits, if_neg (Nat.not_le.mpr hfits), hb,
      h.sum?_pos hsize (by decide), granted, Call.result, hahead]
    rfl
  · rw [reply_of_not_fits (c := .get) hfits, if_pos (Nat.not_lt.mp hfits)]
    rfl

theorem Sound.seek?_eq (h : w.Sound buffer) (hsize : buffer.size < 2 ^ 63) (pos : Nat) :
    w.seek? pos = some (w.reply (.seek pos)) := by
  rw [seek?, h.sum?_stop hsize, Option.bind_eq_bind, Option.bind_some]
  by_cases hfits : w.start ≤ pos ∧ pos ≤ w.stop
  · rw [h.reply_of_fits (c := .seek pos) hfits, if_neg (by omega)]
    rfl
  · rw [reply_of_not_fits (c := .seek pos) hfits, if_pos (by omega)]
    rfl

/-- **The way back from a byte that was read is never refused.** -/
theorem Sound.peek?_eq (h : w.Sound buffer) (hsize : buffer.size < 2 ^ 63) :
    w.peek? = some (w.reply .peek) := by
  rw [peek?, h.get?_eq hsize, Option.bind_eq_bind, Option.bind_some]
  by_cases hfits : w.pos < w.stop
  -- the byte has moved the window on, but not its start and its end
  · have hback : (Call.seek w.pos).Fits (w.granted .get).window := ⟨h.start_le_pos, h.pos_le_stop⟩
    have hread := h.window_granted (c := .get) hfits
    rw [h.reply_of_fits (c := .get) hfits, h.reply_of_fits (c := .peek) hfits]
    show ((w.granted .get).window.seek? w.pos).bind _ = _
    rw [hread.seek?_eq hsize, hread.reply_of_fits hback]
    rfl
  · rw [reply_of_not_fits (c := .get) hfits, reply_of_not_fits (c := .peek) hfits]
    rfl

theorem Sound.take?_eq (h : w.Sound buffer) (hsize : buffer.size < 2 ^ 63) {count : Nat}
    (hcount : count < 2 ^ 63) : w.take? count = some (w.reply (.take count)) := by
  rw [take?, h.sum?_pos hsize hcount, Option.bind_eq_bind, Option.bind_some, h.sum?_stop hsize,
    Option.bind_eq_bind, Option.bind_some]
  by_cases hfits : w.pos + count ≤ w.stop
  · have hslice : w.slice? w.pos (w.pos + count) = some (w.ahead count) := by
      rw [slice?, if_pos ⟨Nat.le_add_right _ _, h.buffer_eq ▸ Nat.le_trans hfits h.stop_le_size⟩,
        extract_eq_ahead]
    rw [h.reply_of_fits (c := .take count) hfits, if_neg (Nat.not_lt.mpr hfits), hslice]
    rfl
  · rw [reply_of_not_fits (c := .take count) hfits, if_pos (Nat.not_le.mp hfits)]
    rfl

theorem Sound.skip?_eq (h : w.Sound buffer) (hsize : buffer.size < 2 ^ 63) {count : Nat}
    (hcount : count < 2 ^ 63) : w.skip? count = some (w.reply (.skip count)) := by
  rw [skip?, h.sum?_pos hsize hcount, Option.bind_eq_bind, Option.bind_some, h.seek?_eq hsize]
  rfl

theorem Sound.sub?_eq (h : w.Sound buffer) (hsize : buffer.size < 2 ^ 63) {start length : Nat}
    (hsum : start + length < 2 ^ 64) : w.sub? start length = some (w.reply (.sub start length)) := by
  rw [sub?, sum?_eq hsum, Option.bind_eq_bind, Option.bind_some, h.sum?_stop hsize,
    Option.bind_some]
  by_cases hfits : w.start ≤ start ∧ start + length ≤ w.stop
  · rw [reply, sub, if_neg (by omega), if_pos hfits]
    rfl
  · rw [reply, sub, if_pos (by omega), if_neg hfits]
    rfl

/-- **Nothing is out of range when a call is made**, and what comes of it is what the functions on windows
give. -/
theorem Sound.call?_eq (h : w.Sound buffer) (hsize : buffer.size < 2 ^ 63) (hsmall : c.Small) :
    w.call? c = some (w.reply c) := by
  cases c with
  | get => exact h.get?_eq hsize
  | peek => exact h.peek?_eq hsize
  | take count => exact h.take?_eq hsize (hsmall count List.mem_cons_self)
  | seek pos => exact h.seek?_eq hsize pos
  | skip count => exact h.skip?_eq hsize (hsmall count List.mem_cons_self)
  | rewind => rfl
  | sub start length =>
    have hstart := hsmall start List.mem_cons_self
    have hlength := hsmall length (List.mem_cons_of_mem _ List.mem_cons_self)
    exact h.sub?_eq hsize (by omega)

end PdfScene.Window
