import PdfScene.Proofs.Content.Tandem

/-!
# Reading again

Content that is read again comes to the same, whatever has been remembered or forgotten in between:
the same shapes, but for the numbers issued to images that have none of their own, and the same
text. The two readings are in tandem, and `Comparison.alike` is what is compared of them. Their
scopes have the same dictionaries but need not have the same numbers.
-/

set_option autoImplicit false

namespace PdfScene

open Run

/-- The shapes without the numbers issued to images. -/
def Shapes.anonymous (shapes : Shapes) : Shapes := shapes.map Shape.anonymous

/-- Two scenes with the same text, and with shapes that differ in the numbers issued to images at
most. -/
structure Scene.Alike (a b : Scene) : Prop where
  shapes : a.shapes.anonymous = b.shapes.anonymous
  blocks : a.blocks = b.blocks

theorem Scene.Alike.refl (a : Scene) : a.Alike a := ⟨rfl, rfl⟩

namespace Machine

/-- Two machines with the same open text object whose scenes are alike. -/
structure Alike (s t : Machine) : Prop where
  scene : s.scene.Alike t.scene
  block : s.block = t.block

variable {s t : Machine}

theorem Alike.endText (h : s.Alike t) : s.endText.Alike t.endText := by
  unfold Machine.endText
  rw [← h.block]
  cases s.block with
  | none => exact h
  | some block =>
    dsimp only
    split
    · exact ⟨h.scene, rfl⟩
    · exact ⟨⟨h.scene.shapes, congrArg (·.push block) h.scene.blocks⟩, rfl⟩

theorem Alike.splice {a b : Scene} (h : s.Alike t) (hab : a.Alike b) :
    (s.splice a).Alike (t.splice b) := by
  have hshapes : Shapes.anonymous (s.scene.shapes ++ a.shapes) =
      Shapes.anonymous (t.scene.shapes ++ b.shapes) := by
    have hs := h.scene.shapes
    have ha := hab.shapes
    simp only [Shapes.anonymous] at hs ha ⊢
    rw [Array.map_append, Array.map_append, hs, ha]
  unfold Machine.splice
  rw [← h.block, ← hab.blocks]
  cases s.block with
  | none => exact ⟨⟨hshapes, congrArg (· ++ a.blocks) h.scene.blocks⟩, rfl⟩
  | some block => exact ⟨⟨hshapes, h.scene.blocks⟩, rfl⟩

/-- Two readings of the same content. -/
def Comparison.alike : Comparison where
  machines := Alike
  scenes := Scene.Alike
  congr := by
    intro s t s' t' h hs hsb ht htb
    exact ⟨hs ▸ ht ▸ h.scene, hsb ▸ htb ▸ h.block⟩
  paint := by
    intro s t mark mark' h hstate hmark
    refine ⟨⟨?_, h.scene.blocks⟩, h.block⟩
    have hshapes := h.scene.shapes
    simp only [Shapes.anonymous] at hshapes
    simp [Shapes.anonymous, Machine.paint, hshapes, hstate, hmark]
  beginText := by
    intro s t mode h
    exact ⟨h.scene, by simp [Machine.beginText, h.block]⟩
  endText := Alike.endText
  say := by
    intro s t items h
    exact ⟨h.scene, by simp [h.block]⟩
  splice := Alike.splice

end Machine

theorem Form.ReadsAs.refl (f : Form) : f.ReadsAs f := ⟨rfl, rfl, rfl, rfl, .refl _, none, rfl⟩

/-- Forms that are used in the same state start in the same state. -/
theorem Form.ReadsAs.initialState_eq {f g : Form} (h : f.ReadsAs g) (hstate : g.state = f.state) :
    g.initialState = f.initialState := by
  unfold Form.initialState
  rw [hstate, h.matrix, h.bbox]

namespace Content

variable {lib : Library} {mode : Mode} {options : Options} {roots : List Dict}

/-- Content is read alike from two memories, if the forms that it uses are. -/
theorem scene_agree {c d : Context} (hcd : c.Tandem d) (hco : c.lib.Coherent roots)
    (hforms : c.FormsCompare d roots .alike) (state : GraphicsState) (data : Bytes) :
    Agree c.lib roots c.scopes d.scopes (Matched Scene.Alike) (scene c state data)
      (scene d state data) := by
  have hrun := Machine.performAll_tandem hcd hco hforms
    (s := .start state) (t := .start state) ⟨rfl, rfl, rfl, rfl, .refl _, rfl⟩
    (Operation.readAll_plain data)
  refine Agree.bind hrun fun r r' hr => ?_
  cases hr with
  | ok h => exact Agree.pure (.ok h.compared.scene)
  | error e e' => exact Agree.pure (.error e e')

/-- A form is read alike from two memories, if the forms that it uses are. -/
theorem formScene_agree {opened : List ObjRef → Form → Run Scene} (hco : lib.Coherent roots)
    (hopened : ∀ (inProgress : List ObjRef) (f g : Form), f.ReadsAs g → g.state = f.state →
      lib.HoldsStream roots f.stream →
        Agree lib roots f.scopes g.scopes Scene.Alike (opened inProgress f) (opened inProgress g))
    (inProgress : List ObjRef) {f g : Form} (h : f.ReadsAs g) (hstate : g.state = f.state)
    (hstream : lib.HoldsStream roots f.stream) :
    Agree lib roots f.scopes g.scopes Scene.Alike (formScene lib mode options opened inProgress f)
      (formScene lib mode options opened inProgress g) := by
  unfold formScene Form.data
  rw [h.stream, h.initialState_eq hstate, h.ref]
  refine Agree.bind (Steady.decode hco hstream) fun answer _ heq => ?_
  subst heq
  cases answer with
  | error e => exact Agree.pure (.refl _)
  | ok decoded =>
    let c : Context :=
      ⟨lib, mode, options.recordText, f.scopes, opened (inProgress ++ f.ref.toList)⟩
    have hscene := scene_agree (c := c) (d := { c with scopes := g.scopes })
      ⟨⟨rfl, h.scopes⟩, rfl, rfl⟩ hco (hopened (inProgress ++ f.ref.toList)) f.initialState
      decoded.data
    refine Agree.bind hscene fun r r' hr => ?_
    cases hr with
    | ok h => exact Agree.pure h
    | error e e' => exact Agree.pure (.refl _)

/-- A form is read alike from two memories. The induction is on the room that is left for forms. -/
theorem invoke_agree (hco : lib.Coherent roots) (room : Nat) : ∀ (inProgress : List ObjRef)
    (f g : Form), f.ReadsAs g → g.state = f.state → lib.HoldsStream roots f.stream →
      Agree lib roots f.scopes g.scopes Scene.Alike (invoke lib mode options room inProgress f)
        (invoke lib mode options room inProgress g) := by
  induction room with
  | zero =>
    intro inProgress f g _ _ _
    exact Agree.pure (.refl _)
  | succ room ih =>
    intro inProgress f g h hstate hstream
    have huse : inUse inProgress g = inUse inProgress f := by rw [inUse, inUse, h.ref]
    unfold invoke
    rw [huse]
    split
    · exact Agree.pure (.refl _)
    · exact formScene_agree hco ih inProgress h hstate hstream

/-- A form that no content uses is read alike from two memories as well. -/
theorem interpretForm_agree (hco : lib.Coherent roots) {f g : Form} (h : f.ReadsAs g)
    (hstate : g.state = f.state) (hstream : lib.HoldsStream roots f.stream) :
    Agree lib roots f.scopes g.scopes Scene.Alike (interpretForm lib mode options f)
      (interpretForm lib mode options g) :=
  formScene_agree hco (invoke_agree hco (options.formDepth - 1)) [] h hstate hstream

/-- **Content that is read again comes to the same**, or cannot be read either time, whatever is
remembered. -/
theorem interpret_agree {S T : Scopes} (hco : lib.Coherent roots) (hST : S.Alike T)
    (state : GraphicsState) (data : Bytes) :
    Agree lib roots S T (Matched Scene.Alike) (interpret lib mode options S state data)
      (interpret lib mode options T state data) := by
  let c : Context :=
    ⟨lib, mode, options.recordText, S, invoke lib mode options options.formDepth []⟩
  exact scene_agree (c := c) (d := { c with scopes := T }) ⟨⟨rfl, hST⟩, rfl, rfl⟩ hco
    (invoke_agree hco options.formDepth []) state data

end Content

end PdfScene
