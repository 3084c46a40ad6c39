import PdfScene.Content.Interpret
import PdfScene.Scene.Device

/-!
# Forms on their own

A form that no content uses is interpreted once, when its shapes are first asked for, and painted
from those shapes until it lets go of them.
-/

set_option autoImplicit false

namespace PdfScene

/-- A form with its shapes, if they are held. -/
structure HeldForm where
  form : Form
  options : Options
  held : Option Shapes

namespace HeldForm

/-- A form without its shapes. -/
def ofForm (form : Form) (options : Options) : HeldForm := ⟨form, options, none⟩

def isHeld (f : HeldForm) : Bool := f.held.isSome

/-- The shapes, which are held from then on. -/
def shapes (lib : Library) (f : HeldForm) : Run (Shapes × HeldForm) := do
  match f.held with
  | some shapes => pure (shapes, f)
  | none =>
    let scene ← Content.interpretForm lib .shapes f.options f.form
    pure (scene.shapes, { f with held := some scene.shapes })

/-- Painting the form, between a saved and a restored state. -/
def painting {σ : Type} (lib : Library) (device : Device σ) (base : Affine Float) (f : HeldForm) :
    Run (Painting σ × HeldForm) := do
  let (shapes, f) ← f.shapes lib
  pure (Painting.saved device (Painting.shapes device base shapes.toList), f)

/-- Lets go of the shapes, and forgets the fonts of the form's own resources. -/
def dispose (f : HeldForm) (m : Memory) : HeldForm × Memory :=
  ({ f with held := none }, f.form.resources.elim m fun scope => scope.dispose m)

end HeldForm

end PdfScene
