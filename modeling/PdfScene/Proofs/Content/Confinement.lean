import PdfScene.Proofs.Content.Inlining
import PdfScene.Proofs.Content.Moves
import PdfScene.Proofs.Content.Recursion

/-!
# Confinement

Content paints within the clip that it starts from, and a form within its box besides. A clip is a
chain of regions that only gets longer where painting goes on, and going back to a saved state goes
back to a chain with the same beginning. `Machine.Confined` is the invariant: of the state in
effect, of every saved state and of every shape that has been painted.

A form is content of its own, so what comes of it begins with the clip that the form starts in: the
clip where the form is used, and then its box. `Content.ComesOf` says which shapes of a reading come
of which form, however deep the form is nested.
-/

set_option autoImplicit false

namespace PdfScene

/-- What a box confines painting to under a transform. -/
def Rect.region (box : Rect Float) (ctm : Affine Float) : ClipRegion :=
  ⟨Path.empty.rect box.x box.y box.width box.height, ctm, .nonZero⟩

namespace Form

variable {f : Form}

/-- A form starts in the clip of the state it is used in. -/
theorem suffix_initialState : f.state.clip <:+ f.initialState.clip := by
  unfold initialState
  cases f.bbox with
  | none => exact List.suffix_refl _
  | some box => exact List.suffix_cons _ _

/-- A form with a box starts within its box besides. -/
theorem regions_initialState {box : Rect Float} (h : f.bbox = some box) :
    f.initialState.clip.regions =
      f.state.clip.regions ++ [box.region (f.matrix * f.state.ctm)] := by
  unfold initialState
  rw [h]
  exact List.reverse_cons

end Form

/-! ## The invariant -/

namespace Machine

/-- Whatever a machine has painted, paints, or may go back to painting is confined to `base`. -/
structure Confined (base : Clip) (m : Machine) : Prop where
  state : base <:+ m.state.clip
  saved : ∀ s ∈ m.saved, base <:+ s.clip
  painted : ∀ s ∈ m.scene.shapes, base <:+ s.clip

variable {base : Clip} {c : Context} {m n : Machine} {mem : Memory}

theorem Confined.start {state : GraphicsState} (h : base <:+ state.clip) :
    (start state).Confined base :=
  ⟨h, fun _ hs => absurd hs List.not_mem_nil, fun _ hs => absurd hs (Array.not_mem_empty _)⟩

theorem Confined.save (h : m.Confined base) : m.save.Confined base :=
  ⟨h.state, List.forall_mem_cons.mpr ⟨h.state, h.saved⟩, h.painted⟩

theorem Confined.restore (h : m.Confined base) : m.restore.Confined base := by
  have hsaved := h.saved
  unfold Machine.restore
  cases hs : m.saved with
  | nil => exact h
  | cons state saved =>
    rw [hs] at hsaved
    obtain ⟨hstate, hsaved⟩ := List.forall_mem_cons.mp hsaved
    exact ⟨hstate, hsaved, h.painted⟩

theorem Confined.paint (h : m.Confined base) (mark : Mark) : (m.paint mark).Confined base := by
  refine ⟨h.state, h.saved, fun s hs => ?_⟩
  rcases Array.mem_push.mp hs with hs | rfl
  · exact h.painted s hs
  · exact h.state

/-- A clip that the end of a path sets is one more region of the clip in effect. -/
theorem Confined.applyClip (h : m.Confined base) : m.applyClip.Confined base := by
  unfold Machine.applyClip
  cases m.pendingClip with
  | none => exact h
  | some rule => exact ⟨h.state.trans (List.suffix_cons _ _), h.saved, h.painted⟩

/-- What comes of a form is confined where the form is used, if it is confined where it starts. -/
theorem Confined.splice {s : Scene} (h : m.Confined base)
    (hs : ∀ shape ∈ s.shapes, m.state.clip <:+ shape.clip) : (m.splice s).Confined base := by
  have hpainted : ∀ shape ∈ m.scene.shapes ++ s.shapes, base <:+ shape.clip := by
    intro shape hshape
    rcases Array.mem_append.mp hshape with hshape | hshape
    · exact h.painted shape hshape
    · exact h.state.trans (hs shape hshape)
  unfold Machine.splice
  cases m.block <;> exact ⟨h.state, h.saved, hpainted⟩

/-- **Every move keeps everything confined**, if forms paint within the clip they are used in. -/
theorem Confined.move
    (hinvoke : ∀ form mem scene, (c.invoke form mem).1 = .ok scene →
      ∀ s ∈ scene.shapes, form.state.clip <:+ s.clip)
    (hmove : Move c m n) (h : m.Confined base) : n.Confined base := by
  cases hmove with
  | setState hclip => exact ⟨hclip ▸ h.state, h.saved, h.painted⟩
  | applyClip => exact h.applyClip
  | paint mark => exact h.paint mark
  | endText =>
    unfold Machine.endText
    cases m.block with
    | none => exact h
    | some block =>
      dsimp only
      split <;> exact ⟨h.state, h.saved, h.painted⟩
  | splice hscene => exact h.splice (hinvoke _ _ _ hscene)
  | setPath | setPendingClip | setBlock => exact ⟨h.state, h.saved, h.painted⟩

end Machine

/-! ## Readings -/

namespace Content

variable {lib : Library} {mode : Mode} {options : Options}

/-- Content paints within the clip of the state it starts from, if the forms that it uses do. -/
theorem scene_confined {c : Context} {state : GraphicsState} {data : Bytes} {mem : Memory}
    {painted : Scene}
    (hinvoke : ∀ form mem scene, (c.invoke form mem).1 = .ok scene →
      ∀ s ∈ scene.shapes, form.state.clip <:+ s.clip)
    (h : (scene c state data mem).1 = .ok (.ok painted)) :
    ∀ s ∈ painted.shapes, state.clip <:+ s.clip := by
  obtain ⟨e | m, hrun, h⟩ := Run.bind_eq_ok_iff.mp h
  · cases h
  · cases h
    exact (Machine.performAll_invariant (P := (·.Confined state.clip)) (fun _ h => h.save)
      (fun _ h => h.restore) (fun _ _ => Machine.Confined.move hinvoke)
      (.start (List.suffix_refl _)) hrun).painted

/-- **What comes of a form is within the clip that the form starts in.** The induction is on the
room that is left for forms. -/
theorem invoke_confined (room : Nat) : ∀ (inProgress : List ObjRef) (form : Form) (mem : Memory)
    (painted : Scene), (invoke lib mode options room inProgress form mem).1 = .ok painted →
    ∀ s ∈ painted.shapes, form.initialState.clip <:+ s.clip := by
  have hempty : ∀ {painted : Scene} {base : Clip} {mem : Memory},
      ((pure .empty : Run Scene) mem).1 = .ok painted → ∀ s ∈ painted.shapes, base <:+ s.clip := by
    intro painted base mem h s hs
    cases h
    exact absurd hs (Array.not_mem_empty _)
  induction room with
  | zero => exact fun _ _ _ _ h => hempty h
  | succ room ih =>
    intro inProgress form mem painted h
    rw [invoke] at h
    split at h
    · exact hempty h
    · obtain ⟨e | decoded, -, h⟩ := Run.bind_eq_ok_iff.mp h
      · exact hempty h
      · obtain ⟨e | painted', hpainted, h⟩ := Run.bind_eq_ok_iff.mp h
        · exact hempty h
        · cases h
          exact scene_confined (fun inner mem painted h s hs =>
            inner.suffix_initialState.trans (ih _ inner mem painted h s hs)) hpainted

variable (lib mode options) in
/-- A shape of a reading comes of a form: the form is used by the content, or by a form that the
content uses and that can be read to the end, and so on. -/
inductive ComesOf : Reading → Memory → Form → Shape → Prop where
  | here {r : Reading} {mem mem₁ : Memory} {form : Form} {painted : Scene} {s : Shape} :
      (Machine.start r.state).Uses (r.context lib mode options) (Operation.readAll r.data) mem
        form mem₁ →
      (invoke lib mode options r.room r.inProgress form mem₁).1 = .ok painted →
      s ∈ painted.shapes → ComesOf r mem form s
  | inner {r child : Reading} {mem mem₁ mem₂ : Memory} {outer form : Form} {m : Machine}
      {s : Shape} :
      (Machine.start r.state).Uses (r.context lib mode options) (Operation.readAll r.data) mem
        outer mem₁ →
      r.enter lib outer mem₁ = (.ok (some child), mem₂) →
      (child.run lib mode options mem₂).1 = .ok (.ok m) →
      ComesOf child mem₂ form s → ComesOf r mem form s

end Content

/-- The shapes of a form that operations use are among those that the operations paint. -/
theorem Machine.Uses.shapes_subset {c : Context} {m n : Machine} {ops : List Operation}
    {mem mem' : Memory} {form : Form} {painted : Scene} {s : Shape}
    (huse : m.Uses c ops mem form mem') (hn : (m.performAll c ops mem).1 = .ok (.ok n))
    (hpainted : (c.invoke form mem').1 = .ok painted) (hs : s ∈ painted.shapes) :
    s ∈ n.scene.shapes := by
  induction huse with
  | @here m o rest mem mem' name form hop hname hform =>
    have hdo : (m.perform c o mem).1 = .ok (.done (m.splice painted)) := by
      rw [Machine.perform_form hop hname hform, Run.map_of_ok hpainted]
    rw [Machine.performAll_of_next? (Run.next?_of_result hdo rfl)] at hn
    refine Machine.performAll_shapes hn ?_
    have hin : ∀ before : Shapes, s ∈ before ++ _ := fun _ => Array.mem_append.mpr (.inr hs)
    unfold Machine.splice
    cases m.block <;> exact hin _
  | later hnext _ ih =>
    rw [Machine.performAll_of_next? hnext] at hn
    exact ih hn hpainted

namespace Content

variable {lib : Library} {mode : Mode} {options : Options} {r : Reading} {mem : Memory} {m : Machine}
  {form : Form} {s : Shape}

/-- A shape that comes of a form is one of the shapes of the reading. -/
theorem ComesOf.mem_shapes (h : ComesOf lib mode options r mem form s)
    (hrun : (r.run lib mode options mem).1 = .ok (.ok m)) : s ∈ m.scene.shapes := by
  induction h generalizing m with
  | here huse hpainted hs => exact huse.shapes_subset hrun hpainted hs
  | @inner r child mem mem₁ mem₂ outer form n s huse henter hchild _ ih =>
    have hpainted : (invoke lib mode options r.room r.inProgress outer mem₁).1 = .ok n.scene := by
      rw [invoke_eq, Run.bind_of_eq henter]
      exact congrArg Prod.fst (Reading.yield_of_run hchild)
    exact huse.shapes_subset hrun hpainted (ih hchild)

/-- A shape that comes of a form is within the clip that the form starts in. -/
theorem ComesOf.confined (h : ComesOf lib mode options r mem form s) :
    form.initialState.clip <:+ s.clip := by
  induction h with
  | here _ hpainted hs => exact invoke_confined _ _ _ _ _ hpainted _ hs
  | inner _ _ _ _ ih => exact ih

/-- **Nothing is painted outside of the clip that content starts from**, and nothing that comes of a
form outside of the clip where the form is used and its box there. -/
theorem interpret_confined {scopes : Scopes} {state : GraphicsState} {data : Bytes}
    {painted : Scene}
    (h : (interpret lib mode options scopes state data mem).1 = .ok (.ok painted)) :
    (∀ s ∈ painted.shapes, state.clip.regions <+: s.clip.regions) ∧
      ∀ form s, ComesOf lib mode options (.root options scopes state data) mem form s →
        s ∈ painted.shapes ∧
          form.state.clip.regions <+: s.clip.regions ∧
          ∀ box, form.bbox = some box →
            form.state.clip.regions ++ [box.region (form.matrix * form.state.ctm)] <+:
              s.clip.regions := by
  refine ⟨fun s hs => ?_, fun form s hcomes => ?_⟩
  · have hconfined := scene_confined
      (c := ⟨lib, mode, options.recordText, scopes, invoke lib mode options options.formDepth []⟩)
      (fun form mem painted h s hs =>
        form.suffix_initialState.trans (invoke_confined _ _ _ _ painted h s hs)) h
    exact List.reverse_prefix.mpr (hconfined s hs)
  · have hclip := hcomes.confined
    refine ⟨?_, List.reverse_prefix.mpr (form.suffix_initialState.trans hclip), fun box hbox => ?_⟩
    · rw [interpret_eq, Reading.scene_eq] at h
      obtain ⟨e | m, hrun, h⟩ := Run.bind_eq_ok_iff.mp h <;> cases h
      exact hcomes.mem_shapes hrun
    · rw [← Form.regions_initialState hbox]
      exact List.reverse_prefix.mpr hclip

/-- Content that starts within a box paints the form within that box and its own. -/
theorem interpret_confined_boxed :
    let lib := Library.boxed 0 9
    let state := GraphicsState.initial.within (some [Rect.region ⟨0, 0, 5, 5⟩ .identity])
    let form := (Form.ofStream lib (.boxed 0 9)).usedIn [.boxed] state
    ∃ painted s box, (interpret lib .shapes .default [.boxed] state (Bytes.ofAscii "/F Do")
          (.boxed lib)).1 = .ok (.ok painted) ∧
      s ∈ painted.shapes ∧ state.clip.regions <+: s.clip.regions ∧ form.bbox = some box ∧
      state.clip.regions ++ [box.region (form.matrix * state.ctm)] <+: s.clip.regions := by
  intro lib state form
  let root := Reading.root .default [.boxed] state (Bytes.ofAscii "/F Do")
  obtain ⟨child, mem₂, henter, hdata⟩ : ∃ child mem₂,
      root.enter lib form (.boxed lib) = (.ok (some child), mem₂) ∧
        child.data = Bytes.ofAscii "q(A)Tj Q" :=
    ⟨_, _, Reading.enter_of_data rfl rfl rfl, rfl⟩
  obtain ⟨n, hn, hsize⟩ : ∃ n, (child.run lib .shapes .default mem₂).1 = .ok (.ok n) ∧
      n.scene.shapes.size = 1 := by
    unfold Reading.run
    rw [hdata, Operation.readAll_boxed]
    exact ⟨_, rfl, rfl⟩
  have hops : Operation.readAll root.data = [⟨.paintXObject, [.name "F"]⟩] :=
    Operation.readAll_selfPainting
  have hform := Scopes.xobject?_boxed 0 9 (.boxed lib)
  have hrun : (root.run lib .shapes .default (.boxed lib)).1 =
      .ok (.ok ((Machine.start state).splice n.scene)) := by
    have hdo := Reading.perform_form (r := root) (m := .start root.state)
      (o := ⟨.paintXObject, [.name "F"]⟩) rfl rfl hform henter hn
    rw [Reading.run, hops, Machine.performAll_of_done hdo]
    rfl
  have hpainted : (interpret lib .shapes .default [.boxed] state (Bytes.ofAscii "/F Do")
      (.boxed lib)).1 = .ok (.ok ((Machine.start state).splice n.scene).scene) := by
    rw [interpret_eq, Reading.scene_eq, Run.map_of_ok hrun]
    rfl
  obtain ⟨s, hs⟩ : ∃ s, s ∈ n.scene.shapes := Array.exists_mem_of_size_pos (by omega)
  have hcomes : ComesOf lib .shapes .default root (.boxed lib) form s := by
    have huse : (Machine.start state).Uses (root.context lib .shapes .default)
        (Operation.readAll root.data) (.boxed lib) form (.boxed lib) := by
      rw [hops]
      exact .here (m := .start state) rfl rfl hform
    have hinvoke : (invoke lib .shapes .default root.room root.inProgress form (.boxed lib)).1 =
        .ok n.scene := by
      rw [invoke_eq, Run.bind_of_eq henter]
      exact congrArg Prod.fst (Reading.yield_of_run hn)
    exact .here huse hinvoke hs
  obtain ⟨hin, hclip, hbox⟩ := (interpret_confined hpainted).2 form s hcomes
  obtain ⟨box, hfound⟩ : ∃ box, form.bbox = some box := ⟨_, rfl⟩
  exact ⟨_, s, box, hpainted, hin, hclip, hfound, hbox box hfound⟩

end Content

end PdfScene
