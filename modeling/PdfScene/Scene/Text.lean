import PdfScene.Scene.Shape

/-!
# Text blocks — what content says

The strings that one text object shows, with where each starts and ends, make a block. Reading blocks
needs fonts and matrices but neither paths nor images.
-/

set_option autoImplicit false

namespace PdfScene

structure TextItem where
  text : String
  fontName : Option String
  size : Float
  /-- Where its baseline starts, in user space. -/
  origin : Point
  /-- Where its baseline ends, in user space. -/
  stop : Point

/-- The strings shown by one text object. -/
structure TextBlock where
  items : List TextItem

namespace TextItem

/-- The item of a string shown in a state. -/
def ofShown (text : String) (advance : Float) (s : GraphicsState) : TextItem :=
  { text
    fontName := s.text.fontName
    size := s.text.size
    origin := s.textOrigin
    stop := s.textEnd advance }

end TextItem

namespace TextBlock

def empty : TextBlock := ⟨[]⟩

def append (b : TextBlock) (items : List TextItem) : TextBlock := ⟨b.items ++ items⟩

def text (b : TextBlock) : String := String.join (b.items.map TextItem.text)

end TextBlock

end PdfScene
