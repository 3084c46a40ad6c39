import PdfScene.Document.Page
import PdfScene.Proofs.Scene.Calls
import PdfScene.Proofs.Store.Running

/-!
# Painting leaves a device balanced

Painting a page or a form saves the state of the device first and restores it last, and in between
every state that is saved is restored, whichever drawing fails: `Device.paintings_balanced`. A form is
painted as its shapes are; a page is painted in layers, its sheet and the appearances of its
annotations, of which each is read and then painted as a form again.

What is read while painting does not depend on what the device has been asked for, so a painting on a
watched device and one on the device itself go through the same memories (`Painter.Makes`). A panic
comes up in both or in neither, and no call comes after it.
-/

set_option autoImplicit false

namespace PdfScene

open Device Run

variable {σ : Type} (lib : Library) (options : Options) (device : Device σ) (base : Affine Float)

/-! ## Painting that reads -/

/-- A painting that reads as it goes, or has read what it paints. -/
abbrev Painter (σ : Type) : Type := σ → Run (Except Error Unit × σ)

namespace Painter

/-- A painting that reads goes on a watched device as on the device itself, and the calls that it makes
are in some relation to its result. -/
def Makes (R : List Call → Except Error Unit → Prop) (watched : Painter (σ × List Call))
    (plain : Painter σ) : Prop :=
  ∀ s calls, Rel (fun w r => ∃ made, w = (r.1, r.2, calls ++ made) ∧ R made r.1)
    (watched (s, calls)) (plain s)

variable {R : List Call → Except Error Unit → Prop} {opening : List (Drawing × Affine Float)}

/-- A painting that has been read makes its calls. -/
theorem Makes.of_painting {p : Painting (σ × List Call)} {q : Painting σ} (h : p.Makes R q) :
    Makes R (fun s => pure (p s)) (fun s => pure (q s)) := fun s calls => Rel.pure (h s calls)

/-- What is read first is the same for both. -/
theorem Makes.after {α : Type} {x : Run α} {watched : α → Painter (σ × List Call)}
    {plain : α → Painter σ} (h : ∀ a, Makes R (watched a) (plain a)) :
    Makes R (fun s => x >>= fun a => watched a s) (fun s => x >>= fun a => plain a s) :=
  fun s calls => Rel.bind_refl fun a => h a s calls

/-- One painting, and another unless the first has failed. -/
def andThen (p q : Painter σ) : Painter σ := fun s => do
  match ← p s with
  | (.ok (), s) => q s
  | (.error e, s) => pure (.error e, s)

theorem Makes.orderly_andThen {p q : Painter (σ × List Call)} {p' q' : Painter σ}
    (hp : Makes (Orderly opening) p p') (hq : Makes (Orderly []) q q') :
    Makes (Orderly opening) (p.andThen q) (p'.andThen q') := by
  intro s calls
  refine (hp s calls).bind fun w r hr => ?_
  obtain ⟨a, rfl, ha⟩ := hr
  obtain ⟨e | ⟨⟩, s'⟩ := r
  · exact Rel.pure ⟨a, rfl, ha⟩
  · refine (hq s' (calls ++ a)).mono fun w r hr => ?_
    obtain ⟨b, rfl, hb⟩ := hr
    exact ⟨a ++ b, by rw [List.append_assoc], ha.append hb⟩

end Painter

/-- Beside what it paints, a painting comes to an answer. It goes on a watched device as on the device
itself, and between the state that it saves first and restores last its calls are orderly. -/
def Run.Balanced {α : Type} (opening : List (Drawing × Affine Float))
    (watched : σ × List Call → Run ((Except Error Unit × σ × List Call) × α))
    (plain : σ → Run ((Except Error Unit × σ) × α)) : Prop :=
  ∀ s, Rel
    (fun w r => w.2 = r.2 ∧ ∃ inner,
      w.1 = (r.1.1, r.1.2, .save :: inner ++ [.restore]) ∧ Orderly opening inner r.1.1)
    (watched (s, [])) (plain s)

/-! ## Pages -/

namespace Page

/-- The appearance of an annotation is painted as a form is. -/
theorem paintAppearance_makes (scope : Scope) (a : Annotation) :
    Painter.Makes (Orderly []) (paintAppearance lib options device.watched base scope a)
      (paintAppearance lib options device base scope a) := by
  refine Painter.Makes.after fun form => ?_
  cases form with
  | none => exact .of_painting Painting.makes_nothing
  | some form =>
    intro s calls
    simp only [HeldForm.painting, bind_assoc, pure_bind]
    refine Rel.bind_refl fun (shapes, _) => Rel.pure ?_
    exact ((Painting.makes_shapes device base shapes.toList).saved device).mono
      (fun _ _ ⟨_, hmade, hinner⟩ => hmade ▸ hinner.saved) s calls

theorem paintAnnotations_makes (scope : Scope) (annotations : List Annotation) :
    Painter.Makes (Orderly []) (paintAnnotations lib options device.watched base scope annotations)
      (paintAnnotations lib options device base scope annotations) := by
  induction annotations with
  | nil => exact .of_painting Painting.makes_nothing
  | cons a rest ih => exact (paintAppearance_makes lib options device base scope a).orderly_andThen ih

/-- What the painting of a sheet opens with: its colour, if it has one, and its edge. -/
def opening (hints : PaintHints) (rect : Rect Float) (base : Affine Float) :
    List (Drawing × Affine Float) :=
  (hints.background.map fun c => (Drawing.fill rect c, base)).toList ++ [(.clip rect, base)]

theorem sheetPainting_makes (hints : PaintHints) (rect : Rect Float) (shapes : Shapes) :
    (sheetPainting device.watched hints rect base shapes).Makes (Orderly (opening hints rect base))
      (sheetPainting device hints rect base shapes) := by
  have hshapes := Painting.makes_shapes device base shapes.toList
  have hclip := hshapes.draw_andThen device (.clip rect) base
  unfold sheetPainting opening
  cases hints.background with
  | none => exact hclip
  | some c => exact hclip.draw_andThen device (.fill rect c) base

/-- A page is painted in two layers, its sheet and its annotations. -/
theorem paintLayers_eq (hints : PaintHints) (view : View) (annotations : Bool) (leaf : Leaf)
    (content : PageContent) :
    paintLayers lib options device hints view annotations leaf content =
      let base := baseTransform lib leaf view
      let visible := content.annotations.filter fun a => a.isVisible hints.target
      let sheet := sheetPainting device hints (leaf.boundary lib view.boundary) base content.shapes
      Painter.andThen (fun s => pure (sheet s))
        (if annotations && hints.annotations then
          paintAnnotations lib options device base content.scope visible
        else fun s => pure (.ok (), s)) := by
  funext s
  unfold paintLayers Painter.andThen
  simp only [pure_bind]
  rcases sheetPainting device hints _ _ content.shapes s with ⟨e | ⟨⟩, s'⟩
  · rfl
  · cases annotations && hints.annotations <;> rfl

theorem paintLayers_makes (hints : PaintHints) (view : View) (annotations : Bool) (leaf : Leaf)
    (content : PageContent) :
    Painter.Makes
      (Orderly (opening hints (leaf.boundary lib view.boundary) (baseTransform lib leaf view)))
      (paintLayers lib options device.watched hints view annotations leaf content)
      (paintLayers lib options device hints view annotations leaf content) := by
  rw [paintLayers_eq, paintLayers_eq]
  refine (Painter.Makes.of_painting (sheetPainting_makes device _ hints _ _)).orderly_andThen ?_
  cases annotations && hints.annotations with
  | false => exact .of_painting Painting.makes_nothing
  | true => exact paintAnnotations_makes lib options device _ _ _

/-- Loading leaves a page at its place in the tree. -/
theorem load_leaf {p p' : Page} {m m' : Memory} {content : PageContent}
    (h : load lib options p m = (.ok (content, p'), m')) : p'.leaf = p.leaf := by
  unfold load at h
  cases hc : p.content with
  | some content => rw [hc] at h; cases h; rfl
  | none =>
    rw [hc] at h
    obtain ⟨content, _, -, h⟩ := bind_eq_iff.mp h
    cases h
    rfl

end Page

/-- **Painting leaves a device balanced**, whichever drawings fail on it: the calls of a page or a form
that is painted, with or without success, are those between a saved and a restored state, every state
that is saved between the two is restored there, and nothing but restoring comes after a drawing that
failed. A page makes no drawing but that of its background before the edge of its sheet. -/
theorem Device.paintings_balanced (hints : PaintHints) (view : View) (annotations : Bool) (p : Page)
    (f : HeldForm) :
    Run.Balanced
      (Page.opening hints (p.leaf.boundary lib view.boundary) (Page.baseTransform lib p.leaf view))
      (fun s => p.paint lib options device.watched hints view annotations s)
      (fun s => p.paint lib options device hints view annotations s) ∧
    Run.Balanced []
      (fun s => do
        let (painting, f) ← f.painting lib device.watched base
        pure (painting s, f))
      (fun s => do
        let (painting, f) ← f.painting lib device base
        pure (painting s, f)) := by
  constructor
  · intro s m
    dsimp only [Page.paint]
    rcases hload : Page.load lib options p m with ⟨panic | ⟨content, p'⟩, m'⟩
    · rw [bind_of_error (congrArg Prod.fst hload), bind_of_error (congrArg Prod.fst hload)]
      exact ⟨.panic panic, rfl⟩
    · rw [bind_of_eq hload, bind_of_eq hload, ← Page.load_leaf lib options hload]
      -- what is painted on the watched device comes after the call that saved its state
      refine Rel.bind (Page.paintLayers_makes lib options device hints view annotations p'.leaf content
        (device.save s) [.save]) (fun w r hr => ?_) m'
      obtain ⟨inner, rfl, hinner⟩ := hr
      obtain ⟨result, s'⟩ := r
      exact Rel.pure ⟨rfl, inner, rfl, hinner⟩
  · intro s
    simp only [HeldForm.painting, bind_assoc, pure_bind]
    refine Rel.bind_refl fun (shapes, f) => Rel.pure ⟨rfl, ?_⟩
    obtain ⟨_, hrun, inner, rfl, hinner⟩ :=
      (Painting.makes_shapes device base shapes.toList).saved device s []
    exact ⟨inner, hrun, hinner⟩

end PdfScene
