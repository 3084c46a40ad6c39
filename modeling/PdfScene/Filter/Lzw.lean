import PdfScene.Error

/-!
# LZWDecode

Data is a row of codes, most significant bit first, each standing for a string of bytes. The first
256 codes stand for single bytes; 256 clears the table of strings and 257 ends the data. Every other
code read adds a string to the table: the one before it and the first byte of the new one. A code may
name the string that its own reading adds.

A code is 9 to 12 bits wide, as many as the table needs. With early change, which is the rule unless
the stream says otherwise, widths change one string earlier.
-/

set_option autoImplicit false

namespace PdfScene.Lzw

/-- The code that empties the table. -/
def clearCode : Nat := 256

/-- The code that ends the data. -/
def endCode : Nat := 257

/-- The strings of single bytes, and two places that the marks take up. -/
def initialTable : Array Bytes :=
  ((List.range 256).map fun n => [UInt8.ofNat n]).toArray ++ #[[], []]

/-- The width of the next code, when the table holds `size` strings. -/
def codeWidth (early : Bool) (size : Nat) : Nat :=
  let size := if early then size + 1 else size
  if size < 512 then 9 else if size < 1024 then 10 else if size < 2048 then 11 else 12

/-- What has been read. -/
structure State where
  table : Array Bytes
  width : Nat
  /-- The value of the bits that belong to no code yet, and how many they are. -/
  pending : Nat
  count : Nat
  /-- The code before this one, unless the table has just been cleared. -/
  previous : Option Nat
  output : Array UInt8

/-- Where a code leads. -/
inductive Outcome where
  | more (s : State)
  | done (output : Array UInt8)
  | fault (code : Nat)

namespace State

/-- Nothing has been read. -/
def initial : State := ⟨initialTable, 9, 0, 0, none, #[]⟩

def entry (s : State) (code : Nat) : Bytes := s.table.getD code []

/-- The string that `code` stands for. One just past the table repeats the string before it. -/
def lookup? (s : State) (code : Nat) : Option Bytes :=
  if code < s.table.size then some (s.entry code)
  else
    match s.previous with
    | some previous =>
      if code = s.table.size then some (s.entry previous ++ (s.entry previous).take 1) else none
    | none => none

/-- Writes a string and adds the one that it completes. -/
def emit (early : Bool) (s : State) (code : Nat) (string : Bytes) : State :=
  let table :=
    match s.previous with
    | some previous => s.table.push (s.entry previous ++ string.take 1)
    | none => s.table
  { s with
    table
    width := codeWidth early table.size
    previous := some code
    output := s.output ++ string.toArray }

def code (early : Bool) (s : State) (code : Nat) : Outcome :=
  if code = clearCode then
    .more { s with table := s.table.extract 0 258, width := 9, previous := none }
  else if code = endCode then .done s.output
  else
    match s.lookup? code with
    | some string => .more (s.emit early code string)
    | none => .fault code

/-- Takes in a byte, which completes one code at most: fewer bits than a code are pending. -/
def byte (early : Bool) (s : State) (b : UInt8) : Outcome :=
  let pending := s.pending * 256 + b.toNat
  let count := s.count + 8
  if count < s.width then .more { s with pending, count }
  else
    let left := count - s.width
    { s with pending := pending % Nat.pow 2 left, count := left }.code early (pending / Nat.pow 2 left)

end State

def run (early : Bool) (s : State) : Bytes → Except DecodeFault Bytes
  | [] => .ok s.output.toList
  | b :: rest =>
    match s.byte early b with
    | .more s => run early s rest
    | .done output => .ok output.toList
    | .fault code => .error (.invalidCode code)

def decode (early : Bool) (data : Bytes) : Except DecodeFault Bytes := run early .initial data

end PdfScene.Lzw
