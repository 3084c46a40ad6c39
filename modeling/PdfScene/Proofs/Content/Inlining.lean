import Mathlib
import PdfScene.Proofs.Content.Alike
import PdfScene.Proofs.Content.Nesting
import PdfScene.Proofs.Content.Operands
import PdfScene.Proofs.Content.Reachable
import PdfScene.Proofs.Store.Scanned

/-!
# Forms in place

Painting a form is carrying out its content in the place of the form, between a saved and a restored
state, under the form's matrix and within its box: `Form.inPlace` are the operations for that. The
two ways go through different machines. A form has a machine of its own, which starts with nothing
saved and nothing painted; in place it is the machine that paints the form that carries on, with all
that it has saved and painted before. `Machine.InPlace` is what the two machines have in common on
the way.

Content that restores a state which it has not saved tells the two apart, so the content has to be
`Operation.Balanced`; so does content that leaves a path or a clip to what follows it. The numbers
of images without one of their own are issued in both ways, and differ.
-/

set_option autoImplicit false

namespace PdfScene

open Run

/-! ## Balanced content -/

namespace Operation

/-- How many states are saved after an operation, unless it restores one where none is. -/
def balanced? (depth : Nat) (o : Operation) : Option Nat :=
  match o.op.kind, depth with
  | .save, depth => some (depth + 1)
  | .restore, 0 => none
  | .restore, depth + 1 => some depth
  | _, depth => some depth

/-- How many states are saved after operations, if none of them restores one where none is. -/
def balancedFrom? (depth : Nat) : List Operation → Option Nat
  | [] => some depth
  | o :: rest => (o.balanced? depth).bind fun depth => balancedFrom? depth rest

/-- Every state that is restored has been saved, and every one that is saved is restored. -/
abbrev Balanced (ops : List Operation) : Prop := balancedFrom? 0 ops = some 0

end Operation

/-! ## The two machines -/

/-- The shape without the number issued to its image, if its image has none of its own. -/
def Shape.anonymous (s : Shape) : Shape :=
  match s.mark with
  | .image i pixels inContent => { s with mark := .image i.anonymous pixels inContent }
  | _ => s

namespace Machine

/-- A machine `t` carries on from `base` where `s` has been started anew. Beside what `base` has
saved and painted, it has saved and painted what `s` has. -/
structure InPlace (base s t : Machine) : Prop where
  state : t.state = s.state
  path : t.path = s.path
  pendingClip : t.pendingClip = s.pendingClip
  saved : t.saved = s.saved ++ base.saved
  closed : s.block = none
  stillClosed : t.block = none
  noBlocks : s.scene.blocks = #[]
  blocks : t.scene.blocks = base.scene.blocks
  painted : ∃ added : Shapes, t.scene.shapes = base.scene.shapes ++ added ∧
    added.map Shape.anonymous = s.scene.shapes.map Shape.anonymous

variable {base s t : Machine}

/-- So it is where a form starts, and the machine that paints it has saved its state. -/
theorem InPlace.start {m : Machine} (state : GraphicsState) (hblock : m.block = none)
    (hpath : m.path = .empty) (hclip : m.pendingClip = none) :
    InPlace m.save (start state) { m.save with state } where
  state := rfl
  path := hpath
  pendingClip := hclip
  saved := rfl
  closed := rfl
  stillClosed := hblock
  noBlocks := rfl
  blocks := rfl
  painted := ⟨#[], by simp [Machine.save], rfl⟩

theorem InPlace.withState (h : InPlace base s t) (state : GraphicsState) :
    InPlace base { s with state } { t with state } :=
  { h with state := rfl }

theorem InPlace.withPath (h : InPlace base s t) (path : Path) :
    InPlace base { s with path } { t with path } :=
  { h with path := rfl }

theorem InPlace.withPendingClip (h : InPlace base s t) (pendingClip : Option FillRule) :
    InPlace base { s with pendingClip } { t with pendingClip } :=
  { h with pendingClip := rfl }

/-- Both paint the same, but for the number of an image. -/
theorem InPlace.paint {mark mark' : Mark} (h : InPlace base s t)
    (hmark : ∀ state, Shape.anonymous ⟨mark', state⟩ = Shape.anonymous ⟨mark, state⟩) :
    InPlace base (s.paint mark) (t.paint mark') := by
  obtain ⟨added, hadded, hsame⟩ := h.painted
  refine { h with painted := ⟨added.push ⟨mark', s.state⟩, ?_, ?_⟩ }
  · simp [Machine.paint, hadded, h.state]
  · simp [Machine.paint, hsame, hmark]

theorem InPlace.save (h : InPlace base s t) : InPlace base s.save t.save :=
  { h with saved := by simp [Machine.save, h.state, h.saved] }

theorem InPlace.restore (h : InPlace base s t) (hsaved : s.saved ≠ []) :
    InPlace base s.restore t.restore := by
  obtain ⟨state, rest, hs⟩ := List.exists_cons_of_ne_nil hsaved
  have ht : t.saved = state :: (rest ++ base.saved) := by rw [h.saved, hs, List.cons_append]
  simp only [Machine.restore, hs, ht]
  exact { h with state := rfl, saved := rfl }

theorem InPlace.finishPath (h : InPlace base s t) : InPlace base s.finishPath t.finishPath := by
  unfold Machine.finishPath Machine.applyClip
  rw [h.pendingClip]
  cases hclip : s.pendingClip with
  | none => exact (h.withPath .empty)
  | some rule =>
    simp only [h.state, h.path]
    exact ((h.withState _).withPendingClip none).withPath .empty

theorem InPlace.endPath (h : InPlace base s t) (use : PathUse) :
    InPlace base (s.endPath use) (t.endPath use) := by
  rw [endPath_eq, endPath_eq, h.path]
  dsimp only
  generalize (if use.close = true then s.path.close else s.path) = path
  split
  · exact (h.withPath path).finishPath
  · exact ((h.withPath path).paint fun _ => rfl).finishPath

theorem InPlace.withText (h : InPlace base s t) (f : TextState → TextState) :
    InPlace base (s.withText f) (t.withText f) := by
  simpa [Machine.withText, h.state] using h.withState _

theorem InPlace.showText (h : InPlace base s t) (record : Bool) (bs : Bytes) :
    InPlace base (s.showText .shapes record bs) (t.showText .shapes record bs) := by
  unfold Machine.showText Machine.recordText
  simp only [h.state]
  cases record with
  | false => simpa [Machine.advance, h.state] using h.withState _
  | true =>
    have hpaint := h.paint fun state => Eq.refl (Shape.anonymous ⟨.text bs
      (s.state.text.stringText bs) (s.state.text.stringAdvance bs), state⟩)
    simpa [Machine.advance, Machine.paint, h.state] using hpaint.withState _

/-! ### What leaves the saved states alone -/

theorem showText_saved (m : Machine) (mode : Mode) (record : Bool) (bs : Bytes) :
    (m.showText mode record bs).saved = m.saved := by
  cases mode <;> cases record <;> rfl

theorem finishPath_saved (m : Machine) : m.finishPath.saved = m.saved := by
  unfold Machine.finishPath Machine.applyClip
  cases m.pendingClip <;> rfl

theorem endPath_saved (m : Machine) (use : PathUse) : (m.endPath use).saved = m.saved :=
  endPath_of_finishPath (P := fun n => n.saved = m.saved) (fun _ => finishPath_saved _)
    fun _ => finishPath_saved _

end Machine

/-! ## One operation -/

/-- What the two machines have in common stays, and so many states are saved. -/
abbrev Outcome.InPlace (base : Machine) (depth : Nat) : Outcome → Outcome → Prop :=
  Outcome.Follows fun s t => Machine.InPlace base s t ∧ s.saved.length = depth

/-- Two results of which both are values in some relation, or neither is a value. -/
inductive Matched {ε α β : Type} (R : α → β → Prop) : Except ε α → Except ε β → Prop where
  | ok {a : α} {b : β} : R a b → Matched R (.ok a) (.ok b)
  | error (e e' : ε) : Matched R (.error e) (.error e')

theorem Matched.refl {ε α : Type} (r : Except ε α) : Matched Eq r r := by
  cases r with
  | ok a => exact .ok rfl
  | error e => exact .error e e

/-- The number of an image is only named where its samples are missing, so images that differ in it
have pixels together or not at all. -/
theorem Image.Alike.pixels {i j : Image} (h : i.Alike j) (data : Decoded) (reader : JpegReader) :
    Panic.Rel (Matched Eq) (Panic.apart (i.pixels? data reader))
      (Panic.apart (j.pixels? data reader)) := by
  have hsame : ∀ r : Except Error (Option Pixels),
      Panic.Rel (Matched Eq) (Panic.apart r) (Panic.apart r) := fun r =>
    (Panic.rel_eq_iff.mpr rfl).mono fun a b hab => hab ▸ .refl a
  obtain ⟨id, rfl⟩ := h.eq_withId
  have hrow : Image.rowBytes { i with id } = i.rowBytes := rfl
  have hunpack : Image.unpack? { i with id } = i.unpack? := rfl
  unfold Image.pixels? Image.decodeSamples
  dsimp only
  rw [hrow, hunpack]
  cases data.codec with
  | some codec => cases codec <;> exact hsame _
  | none =>
    dsimp only
    split
    · exact .ok (.error _ _)
    · exact hsame _

namespace Machine

variable {c : Context} {roots : List Dict} {base s t : Machine} {o : Operation} {depth : Nat}

section

variable (hmode : c.mode = .shapes) (hco : c.lib.Coherent roots)

include hco

theorem paintImage_inPlace {i j : Image} {inContent : Bool} (h : InPlace base s t)
    (hij : i.Alike j) (himage : c.lib.HoldsStream roots i.stream) :
    Agree c.lib roots c.scopes c.scopes (Outcome.InPlace base s.saved.length)
      (s.paintImage c i inContent) (t.paintImage c j inContent) := by
  have hpixels := fun data => hij.pixels data c.lib.jpeg
  obtain ⟨id, rfl⟩ := hij.eq_withId
  refine Agree.bind (Steady.decode hco himage) fun data _ heq => ?_
  subst heq
  cases data with
  | error e => exact Agree.pure Outcome.Follows.of_failed
  | ok data =>
    refine Agree.bind (Agree.of (hpixels data)) fun r r' hr => ?_
    cases hr with
    | error e e' => exact Agree.pure Outcome.Follows.of_failed
    | ok heq =>
      subst heq
      refine Agree.pure (.of_result rfl rfl ⟨h.paint fun state => ?_, rfl⟩)
      simp only [Shape.anonymous]
      rw [show Image.anonymous { i with id } = i.anonymous from hij.symm]

theorem paintInline_inPlace {stream : StreamObj} (h : InPlace base s t)
    (hstream : stream.toObj.Plain) :
    Agree c.lib roots c.scopes c.scopes (Outcome.InPlace base s.saved.length)
      (s.paintInline c stream) (t.paintInline c stream) := by
  have hexpand : c.lib.HoldsStream roots (InlineData.expand c.lib.order stream) :=
    .plain (InlineData.expand_plain hstream c.lib.order)
  refine Agree.bind (Image.read_agree hco hexpand.dict fun name =>
    Scopes.colorSpace_agree hco name (.refl _)) fun r r' hr => ?_
  cases r <;> cases r'
  · exact Agree.pure Outcome.Follows.of_failed
  · exact hr.elim
  · exact hr.elim
  · exact paintImage_inPlace hco h hr.1 (hr.2 ▸ hexpand)

theorem paintShading_inPlace {name : String} (h : InPlace base s t) :
    Agree c.lib roots c.scopes c.scopes (Outcome.InPlace base s.saved.length)
      (s.paintShading c name) (t.paintShading c name) := by
  refine Agree.bind (Scopes.shading_agree hco name (.refl _)) fun found _ heq => ?_
  subst heq
  cases found with
  | none => exact Agree.pure (.of_result rfl rfl ⟨h, rfl⟩)
  | some shading => exact Agree.pure (.of_result rfl rfl ⟨h.paint fun _ => rfl, rfl⟩)

include hmode

/-- An image of a name is painted alike; what the name leads to is no form. -/
theorem paintObject_inPlace {name : String} {mem mem' : Memory} (h : InPlace base s t)
    (hm : mem.Sound c.lib roots c.scopes) (hm' : mem'.Sound c.lib roots c.scopes)
    (hform : ∀ form mem₁, c.scopes.xobject? c.lib name mem ≠ (.ok (some (.form form)), mem₁)) :
    Panic.Rel (Outcome.InPlace base s.saved.length) (s.paintObject c name mem).1
        (t.paintObject c name mem').1 ∧
      (s.paintObject c name mem).2.Sound c.lib roots c.scopes ∧
      (t.paintObject c name mem').2.Sound c.lib roots c.scopes := by
  obtain ⟨hfound, hsound, hsound'⟩ :=
    (Scopes.xobject_agree hco name (.refl c.scopes)).run hm hm'
  unfold paintObject
  rcases hx : c.scopes.xobject? c.lib name mem with ⟨found, mem₁⟩
  rcases hy : c.scopes.xobject? c.lib name mem' with ⟨found', mem₁'⟩
  rw [hx] at hfound hsound
  rw [hy] at hfound hsound'
  cases hfound with
  | panic p =>
    rw [bind_of_error (congrArg Prod.fst hx), bind_of_error (congrArg Prod.fst hy), hx, hy]
    exact ⟨.panic p, hsound, hsound'⟩
  | ok hfound =>
    rw [bind_of_eq hx, bind_of_eq hy]
    cases hfound with
    | none => exact ⟨.ok (.of_result rfl rfl ⟨h, rfl⟩), hsound, hsound'⟩
    | @some a b hab =>
      cases a with
      | form form => exact absurd hx (hform form mem₁)
      | image i =>
        cases b with
        | form form => exact hab.elim
        | image j =>
          simp only [hmode, if_true]
          exact (paintImage_inPlace hco h hab.1 hab.2).run hsound hsound'

theorem perform_inPlace_of_kind (h : InPlace base s t) (ho : o.Plain)
    (hbalanced : o.balanced? s.saved.length = some depth) (hobject : o.op.kind ≠ .object) :
    Agree c.lib roots c.scopes c.scopes (Outcome.InPlace base depth) (s.perform c o)
      (t.perform c o) := by
  rw [perform_eq, perform_eq, hmode]
  unfold Operation.balanced? at hbalanced
  cases hkind : o.op.kind with
  | object => exact absurd hkind hobject
  | save =>
    rw [hkind] at hbalanced
    exact Agree.pure (.of_result rfl rfl ⟨h.save, Option.some.inj hbalanced⟩)
  | restore =>
    rw [hkind] at hbalanced
    cases hs : s.saved with
    -- here the two would part: `t` would restore what `base` has saved
    | nil => rw [hs] at hbalanced; cases hbalanced
    | cons state rest =>
      rw [hs] at hbalanced
      refine Agree.pure (.of_result rfl rfl ⟨h.restore (by simp [hs]), ?_⟩)
      simpa [Machine.restore, hs] using hbalanced
  | beginText =>
    rw [hkind] at hbalanced
    refine Agree.pure (.of_result rfl rfl ⟨?_, Option.some.inj hbalanced⟩)
    simpa [Machine.beginText, h.state] using h.withState _
  | endText =>
    rw [hkind] at hbalanced
    -- reading for shapes opens no text object
    have hs : s.endText = s := by rw [Machine.endText, h.closed]
    have ht : t.endText = t := by rw [Machine.endText, h.stillClosed]
    dsimp only
    rw [hs, ht]
    exact Agree.pure (.of_result rfl rfl ⟨h, Option.some.inj hbalanced⟩)
  | dash =>
    rw [hkind] at hbalanced
    dsimp only
    rw [h.state]
    rcases o.dashes s.state with ⟨_ | fault, state⟩ <;>
      exact Agree.pure (.of_result rfl rfl ⟨h.withState state, Option.some.inj hbalanced⟩)
  | style =>
    rw [hkind] at hbalanced
    dsimp only
    rw [h.state]
    refine Agree.bind (Context.style_agree (.refl c) hco o s.state none) fun r r' hr => ?_
    subst hr
    cases r with
    | error fault => exact Agree.pure (.of_result rfl rfl ⟨h, Option.some.inj hbalanced⟩)
    | ok state =>
      exact Agree.pure (.of_result rfl rfl ⟨h.withState state, Option.some.inj hbalanced⟩)
  | segment =>
    rw [hkind] at hbalanced
    simp only [reduceCtorEq, if_false, h.path]
    cases o.segment s.path with
    | error fault => exact Agree.pure (.of_result rfl rfl ⟨h, Option.some.inj hbalanced⟩)
    | ok path =>
      exact Agree.pure (.of_result rfl rfl ⟨h.withPath path, Option.some.inj hbalanced⟩)
  | endPath use =>
    rw [hkind] at hbalanced
    simp only [reduceCtorEq, if_false]
    refine Agree.pure (.of_result rfl rfl ⟨h.endPath use, ?_⟩)
    rw [endPath_saved]
    exact Option.some.inj hbalanced
  | clip rule =>
    rw [hkind] at hbalanced
    exact Agree.pure (.of_result rfl rfl ⟨h.withPendingClip _, Option.some.inj hbalanced⟩)
  | text =>
    rw [hkind] at hbalanced
    obtain rfl := Option.some.inj hbalanced
    dsimp only
    rcases shown_rel (R := fun s' t' => InPlace base s' t' ∧ s'.saved = s.saved)
      (fun f _ _ h => ⟨h.1.withText f, h.2⟩)
      (fun bs _ _ h => ⟨h.1.showText c.recordText bs, (showText_saved _ _ _ bs).trans h.2⟩)
      o ⟨h, rfl⟩ with ⟨fault, hs, ht⟩ | ⟨s', t', hs, ht, h', hsaved⟩
    · rw [hs, ht]
      exact Agree.pure (.of_result rfl rfl ⟨h, rfl⟩)
    · rw [hs, ht]
      exact Agree.pure (.of_result rfl rfl ⟨h', congrArg List.length hsaved⟩)
  | shading =>
    rw [hkind] at hbalanced
    obtain rfl := Option.some.inj hbalanced
    simp only [reduceCtorEq, if_false]
    cases o.name 0 with
    | error fault => exact Agree.pure (.of_result rfl rfl ⟨h, rfl⟩)
    | ok name => exact paintShading_inPlace hco h
  | image =>
    rw [hkind] at hbalanced
    obtain rfl := Option.some.inj hbalanced
    simp only [reduceCtorEq, if_false]
    cases hstream : o.operand 0 "image" Obj.stream? with
    | error fault => exact Agree.pure (.of_result rfl rfl ⟨h, rfl⟩)
    | ok stream => exact paintInline_inPlace hco h (ho.stream hstream)

/-- **An operation that uses no form** keeps what the two machines have in common. -/
theorem perform_inPlace {mem mem' : Memory} (h : InPlace base s t) (ho : o.Plain)
    (hbalanced : o.balanced? s.saved.length = some depth)
    (hm : mem.Sound c.lib roots c.scopes) (hm' : mem'.Sound c.lib roots c.scopes)
    (huse : ∀ form mem₁, ¬ Uses c s [o] mem form mem₁) :
    Panic.Rel (Outcome.InPlace base depth) (s.perform c o mem).1 (t.perform c o mem').1 ∧
      (s.perform c o mem).2.Sound c.lib roots c.scopes ∧
      (t.perform c o mem').2.Sound c.lib roots c.scopes := by
  by_cases hkind : o.op.kind = .object
  · have hdepth : s.saved.length = depth := by
      unfold Operation.balanced? at hbalanced
      rw [hkind] at hbalanced
      exact Option.some.inj hbalanced
    rw [perform_eq, perform_eq, hkind]
    dsimp only
    cases hname : o.name 0 with
    | error fault => exact ⟨.ok (.of_result rfl rfl ⟨h, hdepth⟩), hm, hm'⟩
    | ok name =>
      subst hdepth
      exact paintObject_inPlace hmode hco h hm hm' fun form mem₁ hx =>
        huse _ _ (.here (Operator.eq_paintXObject hkind) hname hx)
  · exact (perform_inPlace_of_kind hmode hco h ho hbalanced hkind).run hm hm'

/-- Operations that use no form keep what the two machines have in common. -/
theorem performAll_inPlace {ops : List Operation} {mem mem' : Memory} {n : Machine}
    (h : InPlace base s t) (hops : ∀ o ∈ ops, o.Plain)
    (hbalanced : Operation.balancedFrom? s.saved.length ops = some depth)
    (hm : mem.Sound c.lib roots c.scopes) (hm' : mem'.Sound c.lib roots c.scopes)
    (huse : ∀ form mem₁, ¬ Uses c s ops mem form mem₁) (hn : (s.performAll c ops mem).1 = .ok (.ok n)) :
    ∃ n', (t.performAll c ops mem').1 = .ok (.ok n') ∧ InPlace base n n' ∧
      n.saved.length = depth := by
  induction ops generalizing s t mem mem' with
  | nil =>
    cases hn
    exact ⟨t, rfl, h, Option.some.inj hbalanced⟩
  | cons o rest ih =>
    obtain ⟨between, hfirst, hrest⟩ := Option.bind_eq_some_iff.mp hbalanced
    obtain ⟨s', hs', hn⟩ := next?_of_performAll hn
    obtain ⟨hstep, hsound, hsound'⟩ :=
      perform_inPlace hmode hco h (hops o List.mem_cons_self) hfirst hm hm'
        fun form mem₁ h => huse form mem₁ h.first
    obtain ⟨t', ht', hst, hdepth⟩ := next?_of_rel hstep hs'
    rw [performAll_of_next? ht']
    exact ih hst (fun o ho => hops o (List.mem_cons_of_mem _ ho)) (hdepth ▸ hrest) hsound hsound'
      (fun form mem₁ h => huse form mem₁ (.later hs' h)) hn

end

end Machine

/-! ## A form in its place -/

namespace Form

variable (form : Form)

/-- The operations that lead to the state in which the content of a form starts. -/
def opening : List Operation :=
  [⟨.save, []⟩, ⟨.transform, form.matrix.toList.map .num⟩] ++
    match form.bbox with
    | none => []
    | some box =>
      [⟨.rectangle, [box.x, box.y, box.width, box.height].map .num⟩, ⟨.clip, []⟩, ⟨.endPath, []⟩]

/-- The operations that paint a form in its place, when its content are `ops`. -/
def inPlace (ops : List Operation) : List Operation := form.opening ++ ops ++ [⟨.restore, []⟩]

theorem performAll_opening {c : Context} {m : Machine} {mem : Memory} (hmode : c.mode = .shapes)
    (hpath : m.path = .empty) (hclip : m.pendingClip = none) (hstate : form.state = m.state) :
    m.performAll c form.opening mem = (.ok (.ok { m.save with state := form.initialState }), mem) := by
  obtain ⟨state, saved, path, pendingClip, scene, block⟩ := m
  obtain ⟨lib, mode, recordText, scopes, invoke⟩ := c
  dsimp only at hmode hpath hclip hstate
  subst hmode hpath hclip hstate
  unfold opening initialState
  cases form.bbox <;> rfl

theorem performAll_inPlace {c : Context} {m t : Machine} {ops : List Operation} {mem : Memory}
    (hmode : c.mode = .shapes) (hpath : m.path = .empty) (hclip : m.pendingClip = none)
    (hstate : form.state = m.state)
    (ht : ({ m.save with state := form.initialState }.performAll c ops mem).1 = .ok (.ok t)) :
    (m.performAll c (form.inPlace ops) mem).1 = .ok (.ok t.restore) := by
  rw [inPlace, Machine.performAll_append, Machine.performAll_append,
    form.performAll_opening hmode hpath hclip hstate]
  dsimp only
  cases hops : ({ m.save with state := form.initialState } : Machine).performAll c ops mem with
  | mk answer mem' =>
    rw [hops] at ht
    dsimp only at ht
    rw [ht]
    rfl

end Form

namespace Machine

def withShapes (m : Machine) (added : Shapes) : Machine :=
  { m with scene := { m.scene with shapes := m.scene.shapes ++ added } }

/-- Back in the state before, the machine that has carried on has painted what the other one has,
and nothing else has come of it. -/
theorem InPlace.close {m s t : Machine} (h : InPlace m.save s t) (hsaved : s.saved = [])
    (hpath : s.path = m.path) (hclip : s.pendingClip = m.pendingClip) (hblock : m.block = none) :
    ∃ added, t.restore = m.withShapes added ∧
      added.map Shape.anonymous = s.scene.shapes.map Shape.anonymous := by
  obtain ⟨added, hadded, hsame⟩ := h.painted
  refine ⟨added, ?_, hsame⟩
  have htsaved : t.saved = m.state :: m.saved := by rw [h.saved, hsaved]; rfl
  have hscene : t.scene = (m.withShapes added).scene := congrArg₂ Scene.mk hadded h.blocks
  have htpath : t.path = m.path := h.path.trans hpath
  have htclip : t.pendingClip = m.pendingClip := h.pendingClip.trans hclip
  have htblock : t.block = m.block := h.stillClosed.trans hblock.symm
  obtain ⟨state, saved, path, pendingClip, scene, block⟩ := t
  dsimp only at htsaved hscene htpath htclip htblock
  subst htsaved hscene htpath htclip htblock
  rfl

theorem splice_of_inPlace {m s t : Machine} (h : InPlace m.save s t) (hblock : m.block = none) :
    m.splice s.scene = m.withShapes s.scene.shapes := by
  unfold splice withShapes
  rw [hblock, h.noBlocks]
  simp

end Machine

namespace Content

variable {lib : Library} {roots : List Dict} {options : Options}

/-- The reading that a form without resources of its own opens sees the same scopes, and starts in a
sound memory. -/
theorem Reading.enter_sound {r child : Reading} {state : GraphicsState} {form : Form}
    {name : String} {mem mem₁ mem₂ : Memory} (hco : lib.Coherent roots)
    (hm : mem.Sound lib roots r.scopes)
    (hform : r.scopes.xobject? lib name mem = (.ok (some (.form form)), mem₁))
    (henter : r.enter lib (form.usedIn r.scopes state) mem₁ = (.ok (some child), mem₂)) :
    mem₂.Sound lib roots r.scopes := by
  obtain ⟨hfound, hsound, _⟩ :=
    (Scopes.xobject_agree hco name (.refl r.scopes)).run hm hm
  rw [hform] at hfound hsound
  obtain ⟨_, _, _, _, _, decoded, hdata, _⟩ := enter_eq_some henter
  obtain ⟨hab⟩ := hfound
  cases hab with
  | some hab =>
    have hdecoded := ((Steady.decode hco hab.2).run hsound hsound).2.1
    change Memory.decode lib.inflate form.stream mem₁ = _ at hdata
    rwa [hdata] at hdecoded

/-- **Painting a form is carrying out its content in its place**: the same shapes are added, but for
the numbers of images that have none of their own, and nothing else changes. -/
theorem perform_form_eq_inPlace {r child : Reading} {m n : Machine} {o : Operation} {name : String}
    {form : Form} {mem mem₁ mem₂ mem' : Memory} (hco : lib.Coherent roots)
    (hm : mem.Sound lib roots r.scopes) (hm' : mem'.Sound lib roots r.scopes)
    (hreached : m.Reached (r.context lib .shapes options)) (hpath : m.path.isEmpty = true)
    (hclip : m.pendingClip = none) (hop : o.op = .paintXObject) (hname : o.name 0 = .ok name)
    (hform : r.scopes.xobject? lib name mem = (.ok (some (.form form)), mem₁))
    (hresources : form.resources = none)
    (henter : r.enter lib (form.usedIn r.scopes m.state) mem₁ = (.ok (some child), mem₂))
    (hrun : (child.run lib .shapes options mem₂).1 = .ok (.ok n))
    (hbalanced : Operation.Balanced (Operation.readAll child.data))
    (hpath' : n.path.isEmpty = true) (hclip' : n.pendingClip = none)
    (hforms : ∀ inner mem₃, ¬ (Machine.start child.state).Uses (child.context lib .shapes options)
      (Operation.readAll child.data) mem₂ inner mem₃) :
    ∃ added,
      (m.perform (r.context lib .shapes options) o mem).1 =
        .ok (.done (m.withShapes n.scene.shapes)) ∧
      (m.performAll (r.context lib .shapes options)
        ((form.usedIn r.scopes m.state).inPlace (Operation.readAll child.data)) mem').1 =
          .ok (.ok (m.withShapes added)) ∧
      added.map Shape.anonymous = n.scene.shapes.map Shape.anonymous := by
  have hin := hreached.inShapes rfl
  have hstart : m.path = .empty := hin.tidy hpath
  obtain ⟨_, _, _, hscopes, hstate, _⟩ := Reading.enter_eq_some henter
  have hseen : child.scopes = r.scopes := by simp [hscopes, Form.scopes, Form.usedIn, hresources]
  have hm₂ := Reading.enter_sound hco hm hform henter
  obtain ⟨hrun', hforms'⟩ := Reading.run_withoutForms hseen hforms hrun
  -- the form's own machine, and the one that carries on in its place
  obtain ⟨t, ht, hplace, hdepth⟩ :=
    Machine.performAll_inPlace rfl hco (.start child.state hin.closed hstart hclip)
      (Operation.readAll_plain child.data) hbalanced hm₂ hm' hforms' hrun'
  rw [hstate] at ht
  have hend : n.path = m.path := by
    rw [hstart]
    exact ((Machine.InShapes.start child.state).performAll rfl hrun).tidy hpath'
  obtain ⟨added, hclosed, hsame⟩ := hplace.close (List.length_eq_zero_iff.mp hdepth) hend
    (hclip'.trans hclip.symm) hin.closed
  refine ⟨added, ?_, ?_, hsame⟩
  · rw [Reading.perform_form hop hname hform henter hrun,
      Machine.splice_of_inPlace hplace hin.closed]
  · rw [Form.performAll_inPlace _ rfl hstart hclip rfl ht, hclosed]

end Content

/-! ## A form with a box -/

/-- A form with a matrix and a box that shows one string. -/
def StreamObj.boxed (low high : Float) : StreamObj :=
  ⟨[("Subtype", .name "Form"), ("BBox", .array [.num low, .num low, .num high, .num high]),
    ("Matrix", .array [.num high, .num low, .num low, .num high, .num low, .num low])],
    Bytes.ofAscii "q(A)Tj Q", some ⟨1, 0⟩⟩

/-- The library in which it is the only object. -/
def Library.boxed (low high : Float) : Library :=
  Library.empty.insert ⟨1, 0⟩ (StreamObj.boxed low high).toObj

/-- The scope that calls it F. -/
def Scope.boxed : Scope := ⟨0, [("XObject", .dict [("F", .ref ⟨1, 0⟩)])]⟩

/-- The memory in which that scope has been made. -/
def Memory.boxed (lib : Library) : Memory := { Memory.initial lib 1 with nextScope := 1 }

section

variable (low high : Float)

theorem Library.resources?_boxed :
    (Library.boxed low high).resources? (StreamObj.boxed low high).dict = none := by cbv

theorem Scope.formStream?_boxed :
    boxed.formStream? (.boxed low high) "F" = some (.boxed low high) := by cbv

theorem Scopes.xobject?_boxed (m : Memory) :
    Scopes.xobject? (.boxed low high) "F" [.boxed] m =
      (.ok (some (.form (Form.ofStream (.boxed low high) (.boxed low high)))), m) := by
  have hread : Form.read (.boxed low high) (.boxed low high) m =
      (.ok (Form.ofStream (.boxed low high) (.boxed low high)), m) := by
    unfold Form.read Form.ofStream
    rw [Library.resources?_boxed]
    rfl
  change Scopes.find (Scope.xobject? (.boxed low high) "F") [.boxed] m = _
  rw [Scopes.find,
    bind_of_eq (Scope.xobject?_of_formStream (Scope.formStream?_boxed low high) hread)]
  rfl

theorem Library.coherent_boxed : (Library.boxed low high).Coherent [Scope.boxed.dict] := by
  have hnumbers : ∀ xs : List Float, (Obj.array (xs.map .num)).Plain := fun xs =>
    .array fun o ho => by
      obtain ⟨x, _, rfl⟩ := List.mem_map.mp ho
      exact .atom rfl rfl
  have hentries : ∀ e ∈ (StreamObj.boxed low high).dict, e.2.Plain := by
    intro e he
    simp only [StreamObj.boxed, List.mem_cons, List.not_mem_nil, or_false] at he
    rcases he with rfl | rfl | rfl
    · exact .atom rfl rfl
    · exact hnumbers [low, low, high, high]
    · exact hnumbers [high, low, low, high, low, low]
  refine (Labelled.empty.insert (.inr ⟨_, .stream hentries, rfl⟩)).coherent fun d hd e he => ?_
  rw [List.mem_singleton.mp hd] at he
  rw [List.mem_singleton.mp he]
  refine .inl (.dict fun e he => ?_)
  rw [List.mem_singleton.mp he]
  exact .atom rfl rfl

end

theorem Memory.sound_boxed (lib : Library) :
    (Memory.boxed lib).Sound lib [Scope.boxed.dict] [.boxed] :=
  (Sound.initial 1).create (d := Scope.boxed.dict) (.root List.mem_cons_self)

theorem Operation.readAll_boxed :
    readAll (Bytes.ofAscii "q(A)Tj Q") =
      [⟨.save, []⟩, ⟨.showText, [.str (Bytes.ofAscii "A")]⟩, ⟨.restore, []⟩] := by cbv

/-- The string is shown once by the form and once in its place. -/
theorem Content.perform_form_eq_inPlace_boxed :
    let lib := Library.boxed 0 9
    let r := Reading.root .default [.boxed] .initial (Bytes.ofAscii "/F Do")
    let m := Machine.start .initial
    let form := (Form.ofStream lib (.boxed 0 9)).usedIn [.boxed] .initial
    let o : Operation := ⟨.paintXObject, [.name "F"]⟩
    let mem := Memory.boxed lib
    ∃ shown added : Shapes, shown.size = 1 ∧
      (m.perform (r.context lib .shapes .default) o mem).1 = .ok (.done (m.withShapes shown)) ∧
      (m.performAll (r.context lib .shapes .default)
        (form.inPlace (Operation.readAll (Bytes.ofAscii "q(A)Tj Q"))) mem).1 =
          .ok (.ok (m.withShapes added)) ∧
      added.map Shape.anonymous = shown.map Shape.anonymous := by
  intro lib r m form o mem
  obtain ⟨child, mem₂, henter, hdata⟩ : ∃ child mem₂,
      r.enter lib form mem = (.ok (some child), mem₂) ∧
      child.data = Bytes.ofAscii "q(A)Tj Q" :=
    ⟨_, _, Reading.enter_of_data rfl rfl rfl, rfl⟩
  have hrun : ∃ n, (child.run lib .shapes .default mem₂).1 = .ok (.ok n) ∧
      n.path = .empty ∧ n.pendingClip = none ∧ n.scene.shapes.size = 1 := by
    unfold Reading.run
    rw [hdata, Operation.readAll_boxed]
    exact ⟨_, rfl, rfl, rfl, rfl⟩
  obtain ⟨n, hn, hpath, hclip, hsize⟩ := hrun
  have hbalanced : Operation.Balanced (Operation.readAll child.data) := by
    rw [hdata, Operation.readAll_boxed]
    rfl
  have hforms : ∀ inner mem₃, ¬ (Machine.start child.state).Uses
      (child.context lib .shapes .default) (Operation.readAll child.data) mem₂ inner mem₃ :=
    fun _ _ => Machine.not_uses (by rw [hdata, Operation.readAll_boxed]; decide)
  have hresources : (Form.ofStream lib (.boxed 0 9)).resources = none := by
    rw [Form.ofStream, Library.resources?_boxed]
    rfl
  obtain ⟨added, hdo, hplace, hsame⟩ :=
    perform_form_eq_inPlace (m := m) (o := o) (Library.coherent_boxed 0 9) (Memory.sound_boxed lib)
      (Memory.sound_boxed lib) ⟨.initial, [], mem, rfl⟩ rfl rfl rfl rfl
      (Scopes.xobject?_boxed 0 9 mem) hresources henter hn hbalanced (hpath ▸ rfl) hclip hforms
  exact ⟨n.scene.shapes, added, hsize, hdo, hdata ▸ hplace, hsame⟩

end PdfScene
