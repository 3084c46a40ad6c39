import PdfScene.Content.PathOperator
import PdfScene.Scene.Text

/-!
# The content machine

Content is carried out one operation at a time on a machine that holds the graphics state, the saved
ones, the path under construction, and what has come of the content so far. Content is read for its
shapes or for its text; reading for text builds no paths and paints nothing, but moves through
matrices and fonts in the same way.
-/

set_option autoImplicit false

namespace PdfScene

/-- What content is read for. -/
inductive Mode where
  | shapes
  | text
  deriving DecidableEq, Repr

/-- What comes of content: shapes or text blocks, as it is read for. -/
structure Scene where
  shapes : Shapes
  blocks : Array TextBlock

namespace Scene

def empty : Scene := ⟨#[], #[]⟩

end Scene

structure Machine where
  state : GraphicsState
  /-- Saved states, latest first. -/
  saved : List GraphicsState
  path : Path
  /-- The rule by which the path confines painting once it ends, if it does. -/
  pendingClip : Option FillRule
  scene : Scene
  /-- The text object that is open, when text is read for. -/
  block : Option TextBlock

/-- What an operation leads to. -/
inductive Outcome where
  | done (m : Machine)
  /-- The operation is dropped for a reason, and the machine goes on. -/
  | rejected (fault : OperandFault) (m : Machine)
  /-- The content as a whole cannot be painted. -/
  | failed (e : Error)

namespace Machine

def start (state : GraphicsState) : Machine := ⟨state, [], .empty, none, .empty, none⟩

/-- The machine with another state, or as it is if there is a reason against it. -/
def withState (m : Machine) (r : Except OperandFault GraphicsState) : Outcome :=
  match r with
  | .ok state => .done { m with state }
  | .error fault => .rejected fault m

/-- The machine with another path, or as it is if there is a reason against it. -/
def withPath (m : Machine) (r : Except OperandFault Path) : Outcome :=
  match r with
  | .ok path => .done { m with path }
  | .error fault => .rejected fault m

def save (m : Machine) : Machine := { m with saved := m.state :: m.saved }

/-- Goes back to the state kept last, if one is. -/
def restore (m : Machine) : Machine :=
  match m.saved with
  | [] => m
  | state :: saved => { m with state, saved }

/-- Paints a mark in the state as it is. -/
def paint (m : Machine) (mark : Mark) : Machine :=
  { m with scene := { m.scene with shapes := m.scene.shapes.push ⟨mark, m.state⟩ } }

/-- Confines painting to the path, if that has been asked for. -/
def applyClip (m : Machine) : Machine :=
  match m.pendingClip with
  | none => m
  | some rule =>
    { m with
      state := { m.state with clip := m.state.clip.intersect m.path m.state.ctm rule }
      pendingClip := none }

/-- Ends the path. It is painted first and confines what follows it after that. -/
def endPath (m : Machine) (use : PathUse) : Machine :=
  let path := if use.close then m.path.close else m.path
  let m := { m with path }
  let painted :=
    if path.isEmpty || (use.fill.isNone && !use.stroke) then m
    else m.paint (.path path use.fill use.stroke)
  { painted.applyClip with path := .empty }

/-- Ends the path when text is read for: there is none. -/
def forgetClip (m : Machine) : Machine := { m with pendingClip := none }

/-- Starts a text object, in place of one that is open. -/
def beginText (m : Machine) (mode : Mode) : Machine :=
  { m with
    state := { m.state with text := m.state.text.setMatrix .identity }
    block := if mode = .text then some .empty else m.block }

/-- Ends a text object. One that shows nothing makes no block. -/
def endText (m : Machine) : Machine :=
  match m.block with
  | none => m
  | some block =>
    { m with
      scene :=
        if block.items.isEmpty then m.scene
        else { m.scene with blocks := m.scene.blocks.push block }
      block := none }

/-- Adds what came of a form. Its text goes to the text object that is open. -/
def splice (m : Machine) (s : Scene) : Machine :=
  let scene := { m.scene with shapes := m.scene.shapes ++ s.shapes }
  match m.block with
  | some block =>
    { m with scene, block := some (block.append (s.blocks.toList.flatMap TextBlock.items)) }
  | none => { m with scene := { scene with blocks := scene.blocks ++ s.blocks } }

end Machine

end PdfScene
