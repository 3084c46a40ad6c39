import PdfScene.Graphics.State

/-!
# Forms

A form is content of its own that other content can use: a stream with a matrix, a box that it is
clipped to, and perhaps resources. It is used in a graphics state and sees the resources of whatever
uses it behind its own.
-/

set_option autoImplicit false

namespace PdfScene

/-- A dictionary of named resources. Its number tells its fonts apart from those of other scopes. -/
structure Scope where
  id : Nat
  dict : Dict

namespace Scope

/-- A scope of its own for a dictionary. -/
def create (dict : Dict) : Run Scope := do pure ⟨← Memory.issueScope, dict⟩

end Scope

/-- Resource scopes in the order in which names are looked up, innermost first. -/
abbrev Scopes := List Scope

/-- A form, and what it is used under. -/
structure Form where
  /-- The number of its object, or one issued for it. -/
  id : UInt32
  ref : Option ObjRef
  bbox : Option (Rect Float)
  matrix : Affine Float
  /-- Its own resources, if it has any. -/
  resources : Option Scope
  /-- The scopes of whatever uses it. -/
  outer : Scopes
  /-- The state it is used in. -/
  state : GraphicsState
  stream : StreamObj

namespace Form

/-- Reads a form that nothing uses yet. -/
def read (lib : Library) (s : StreamObj) : Run Form := do
  let resources ←
    match lib.resources? s.dict with
    | some d => some <$> Scope.create d
    | none => pure none
  let id ←
    match s.ref with
    | some r => pure r.num
    | none => Memory.issueId
  pure
    { id
      ref := s.ref
      bbox := lib.rect? s.dict "BBox"
      matrix := (lib.matrix? s.dict "Matrix").getD .identity
      resources
      outer := []
      state := .initial
      stream := s }

/-- The form as it is used with some scopes in a state. -/
def usedIn (f : Form) (outer : Scopes) (state : GraphicsState) : Form := { f with outer, state }

def scopes (f : Form) : Scopes := f.resources.toList ++ f.outer

/-- The state that its content starts in: the state it is used in, under its matrix and within its
box. -/
def initialState (f : Form) : GraphicsState :=
  let s := f.state.concat f.matrix
  match f.bbox with
  | some box =>
    { s with
      clip := s.clip.intersect (Path.empty.rect box.x box.y box.width box.height) s.ctm .nonZero }
  | none => s

def data (lib : Library) (f : Form) : Run (Except Error Decoded) :=
  Memory.decode lib.inflate f.stream

end Form

end PdfScene
