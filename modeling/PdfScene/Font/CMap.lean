import Std.Data.HashMap
import PdfScene.Lexical.Tokens
import PdfScene.Text.Utf16

/-!
# Character maps

A character map says which text each code of a font stands for. It is written as sections: between
`beginbfchar` and `endbfchar` stand pairs of a code and a text, between `beginbfrange` and
`endbfrange` a first and a last code with either the text of the first or a list of texts. Later
entries replace earlier ones.
-/

set_option autoImplicit false

namespace PdfScene

/-- The texts of character codes. -/
structure CMap where
  texts : Std.HashMap UInt32 String

namespace CMap

/-- The map of no code. -/
def empty : CMap := ⟨∅⟩

def lookup? (m : CMap) (code : UInt32) : Option String := m.texts[code]?

def size (m : CMap) : Nat := m.texts.size

/-- The map in which `code` stands for `text`. -/
def insert (m : CMap) (code : UInt32) (text : String) : CMap := ⟨m.texts.insert code text⟩

/-- The code that a string of bytes spells, of which the last four count. -/
def codeOf (bs : Bytes) : UInt32 := bs.foldl (fun n b => n <<< 8 ||| b.toUInt32) 0

/-- The text that a string of bytes spells. -/
def textOf (bs : Bytes) : String := String.ofList (Utf16.decode bs)

/-- The character after `c`, or `c` itself if the number after it is no character. -/
def nextChar (c : Char) : Char :=
  if c.toNat + 1 < 0xD800 ∨ (0xDFFF < c.toNat + 1 ∧ c.toNat + 1 < 0x110000) then
    Char.ofNat (c.toNat + 1)
  else c

/-- The text with its last character advanced. -/
def advanceLast (text : List Char) : List Char :=
  match text.getLast? with
  | some c => text.dropLast ++ [nextChar c]
  | none => []

/-- Gives `count` codes from `code` on the text and its successors. -/
def insertRun (m : CMap) (code : UInt32) (text : List Char) : Nat → CMap
  | 0 => m
  | count + 1 => insertRun (m.insert code (String.ofList text)) (code + 1) (advanceLast text) count

/-- The entries of a pair section. A pair of anything but two hex strings counts for nothing. -/
def readPairs (m : CMap) : List Token → CMap
  | .hexStr code :: .hexStr text :: rest => readPairs (m.insert (codeOf code) (textOf text)) rest
  | _ :: _ :: rest => readPairs m rest
  | _ => m

/-- The texts of a list, up to its end: one for each code from `code` on, none past `last`. -/
def readList (m : CMap) (code last : UInt32) : List Token → CMap × List Token
  | [] => (m, [])
  | .arrayEnd :: rest => (m, rest)
  | .hexStr text :: rest =>
    if code ≤ last then readList (m.insert code (textOf text)) (code + 1) last rest
    else readList m code last rest
  | _ :: rest => readList m code last rest

theorem readList_length_le (m : CMap) (code last : UInt32) (ts : List Token) :
    (readList m code last ts).2.length ≤ ts.length := by
  fun_induction readList m code last ts with
  | case1 => simp
  | case2 => simp
  | case3 _ _ _ _ _ ih => simp only [List.length_cons]; omega
  | case4 _ _ _ _ _ ih => simp only [List.length_cons]; omega
  | case5 _ _ _ _ _ _ ih => simp only [List.length_cons]; omega

/-- The widest range that is taken, less one. -/
def rangeLimit : UInt32 := 0xFFFF

/-- The entries of a range section, up to one that does not open with two codes. An entry whose
codes are no range is passed over without its text. -/
def readRanges (m : CMap) (ts : List Token) : CMap :=
  match ts with
  | .hexStr low :: .hexStr high :: text :: rest =>
    let first := codeOf low
    let last := codeOf high
    if last < first || rangeLimit < last - first then readRanges m rest
    else
      match text with
      | .hexStr start =>
        readRanges (m.insertRun first (Utf16.decode start) ((last - first).toNat + 1)) rest
      | .arrayStart =>
        let list := readList m first last rest
        readRanges list.1 list.2
      | _ => readRanges m rest
  | _ => m
termination_by ts.length
decreasing_by
  · simp only [List.length_cons]; omega
  · simp only [List.length_cons]; omega
  · have := readList_length_le m (codeOf low) (codeOf high) rest
    simp only [List.length_cons]; omega
  · simp only [List.length_cons]; omega

/-- What has been read: the operands since the last word, latest first, and the map. -/
structure Reader where
  operands : List Token
  map : CMap

/-- Takes in a token. A word ends a section or the operands before it. -/
def Reader.feed (r : Reader) : Token → Reader
  | .word w =>
    if w = "endbfchar" then ⟨[], r.map.readPairs r.operands.reverse⟩
    else if w = "endbfrange" then ⟨[], r.map.readRanges r.operands.reverse⟩
    else ⟨[], r.map⟩
  | t => ⟨t :: r.operands, r.map⟩

/-- The map that a sequence of tokens describes. -/
def ofTokens (ts : List Token) : CMap := (ts.foldl Reader.feed ⟨[], empty⟩).map

/-- The map that decoded data describes. -/
def ofBytes (bs : Bytes) : CMap := ofTokens (Token.readAll bs)

end CMap

end PdfScene
