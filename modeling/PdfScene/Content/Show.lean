import PdfScene.Content.Machine

/-!
# Showing text

A shown string is recorded where it starts and then moves the text matrix by its advance: for each
code the glyph's width at the font's size, the spacing of characters, and that of words at spaces, all
scaled. Without a font every byte is a code of half the font's size.
-/

set_option autoImplicit false

namespace PdfScene

namespace TextState

/-- The codes of a string. -/
def codes (t : TextState) (bs : Bytes) : List UInt32 :=
  match t.font with
  | some font => font.codes bs
  | none => Font.simpleCodes bs

/-- The width of a code at size one. -/
def width (t : TextState) (code : UInt32) : Float :=
  match t.font with
  | some font => font.advance code
  | none => Font.fallbackWidth / 1000

/-- The spacing of words at a code. -/
def spaceAfter (t : TextState) (code : UInt32) : Float :=
  let isSpace :=
    match t.font with
    | some font => font.isWordSpace code
    | none => code == 32
  if isSpace then t.wordSpacing else 0

def codeAdvance (t : TextState) (code : UInt32) : Float :=
  (t.width code * t.size + t.charSpacing + t.spaceAfter code) * t.scaling

def stringAdvance (t : TextState) (bs : Bytes) : Float :=
  (t.codes bs).foldl (fun sum code => sum + t.codeAdvance code) 0

def stringText (t : TextState) (bs : Bytes) : String :=
  match t.font with
  | some font => font.text bs
  | none => WinAnsi.decode bs

/-- How far an adjustment between two strings moves: thousandths of the font's size, backward. -/
def adjustment (t : TextState) (x : Float) : Float := -x / 1000 * t.size * t.scaling

end TextState

namespace Machine

def advance (m : Machine) (x : Float) : Machine :=
  { m with state := { m.state with text := m.state.text.advance x } }

/-- Records a shown string: as a shape if `record` says so, or in the text object that is open. -/
def recordText (m : Machine) (mode : Mode) (record : Bool) (bs : Bytes) : Machine :=
  let text := m.state.text.stringText bs
  let advance := m.state.text.stringAdvance bs
  match mode with
  | .shapes => if record then m.paint (.text bs text advance) else m
  | .text =>
    { m with block := m.block.map fun b => b.append [.ofShown text advance m.state] }

def showText (m : Machine) (mode : Mode) (record : Bool) (bs : Bytes) : Machine :=
  (m.recordText mode record bs).advance (m.state.text.stringAdvance bs)

/-- Shows the strings of a list and moves by the numbers. All else is passed over. -/
def showSpaced (m : Machine) (mode : Mode) (record : Bool) (items : List Obj) : Machine :=
  items.foldl
    (fun m item =>
      match item with
      | .num x => m.advance (m.state.text.adjustment x)
      | _ =>
        match item.bytes? with
        | some bs => m.showText mode record bs
        | none => m)
    m

end Machine

/-- The machine after an operator that shows text; none if the operator shows none. -/
def Operation.shown? (o : Operation) (mode : Mode) (record : Bool) (m : Machine) :
    Option (Except OperandFault Machine) :=
  let inState (m : Machine) (f : TextState → TextState) : Machine :=
    { m with state := { m.state with text := f m.state.text } }
  match o.op with
  | .showText => some do pure (m.showText mode record (← o.bytes 0))
  | .showSpacedText => some do pure (m.showSpaced mode record (← o.array 0))
  | .nextLineShow =>
    some do
      let bs ← o.bytes 0
      pure ((inState m TextState.nextLine).showText mode record bs)
  | .nextLineSpaceShow =>
    some do
      let (wordSpacing, charSpacing) ← o.point 0
      let bs ← o.bytes 2
      let spaced := inState m fun t => { t with wordSpacing, charSpacing }.nextLine
      pure (spaced.showText mode record bs)
  | _ => none

end PdfScene
