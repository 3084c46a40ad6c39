import PdfScene.Error
import PdfScene.Scene.Shape

/-!
# Devices — what shapes are painted on

A device is any state together with what it does when it is asked to paint. What it is asked for
comes with a base transform, from user space to the space of the device. Any drawing may fail, and
painting stops there; saving and restoring the device's own state never fails, so
`Painting.saved` can promise that what it saves it also restores.
-/

set_option autoImplicit false

namespace PdfScene

/-- What a device can be asked to draw. -/
inductive Drawing where
  /-- Confine what follows to a rectangle. -/
  | clip (r : Rect Float)
  | fill (r : Rect Float) (c : Color)
  | shape (s : Shape)

/-- A device with states `σ`. -/
structure Device (σ : Type) where
  save : σ → σ
  restore : σ → σ
  /-- Draws, with a transform to device space. -/
  draw : Drawing → Affine Float → σ → Except Error Unit × σ

/-- Something to be painted: how it leaves the device, and whether that failed. -/
abbrev Painting (σ : Type) := σ → Except Error Unit × σ

namespace Painting

variable {σ : Type} (device : Device σ)

/-- Nothing to paint. -/
def nothing : Painting σ := fun s => (.ok (), s)

/-- One painting after the other. A failure of the first leaves out the second. -/
def andThen (p q : Painting σ) : Painting σ := fun s =>
  match p s with
  | (.ok (), s) => q s
  | (.error e, s) => (.error e, s)

/-- A painting with the state of the device saved before it and restored after it, come what may. -/
def saved (p : Painting σ) : Painting σ := fun s =>
  match p (device.save s) with
  | (result, s) => (result, device.restore s)

/-- Shapes in order, but for strings that leave no mark. -/
def shapes (base : Affine Float) : List Shape → Painting σ
  | [] => nothing
  | s :: rest =>
    if s.isInvisible then shapes base rest
    else andThen (device.draw (.shape s) base) (shapes base rest)

end Painting

end PdfScene
