import Mathlib
import PdfScene.Proofs.Content.Alike
import PdfScene.Proofs.Content.Nesting
import PdfScene.Proofs.Content.Operands
import PdfScene.Proofs.Store.Scanned

/-!
# Reading for text

Content that is read for its text says what the same content read for its shapes shows: the items of
all text blocks, one after the other, are the shown strings among the shapes. `Machine.ReadsAs` is
what the two machines have in common on the way. Their states are the same but for the clip, which
only the reading for shapes keeps; what the open text object says counts as said already.

The two differ in what they leave out. A string that is shown outside of any text object is a shape
but part of no block, and a text object that starts within another one drops what that one has said;
so content has to be `Operation.Paired`. The two also stop for different reasons: an image that
cannot be painted stops the reading for shapes alone, in the content and in each form that it
paints.
-/

set_option autoImplicit false

namespace PdfScene

open Run

/-! ## Paired text operators -/

namespace Operation

/-- Whether a text object is open after an operation, if it starts one only where none is open and
shows text only where one is. -/
def paired? (isOpen : Bool) (o : Operation) : Option Bool :=
  match o.op.kind with
  | .beginText => if isOpen then none else some true
  | .endText => some false
  | .text => if isOpen then some true else none
  | _ => some isOpen

/-- Whether a text object is open after operations, if all of them are in place. -/
def pairedFrom? (isOpen : Bool) : List Operation → Option Bool
  | [] => some isOpen
  | o :: rest => (o.paired? isOpen).bind fun isOpen => pairedFrom? isOpen rest

/-- Text objects do not overlap, text is shown in them alone, and the last one ends. -/
abbrev Paired (ops : List Operation) : Prop := pairedFrom? false ops = some false

end Operation

/-! ## What is shown and what is said -/

/-- What a shape says if it is a shown string: the string, its font and size, and where it starts and
ends. Its baseline runs along the first axis of text space, from the origin to its advance. -/
def Shape.textItem? (s : Shape) : Option TextItem :=
  match s.mark with
  | .text _ text advance =>
    some
      { text
        fontName := s.state.text.fontName
        size := s.state.text.size
        origin := (s.state.text.matrix * s.state.ctm).apply (0, 0)
        stop := (.translate advance 0 * s.state.text.matrix * s.state.ctm).apply (0, 0) }
  | _ => none

namespace Scene

/-- The shown strings among the shapes. -/
def shown (s : Scene) : List TextItem := s.shapes.toList.filterMap Shape.textItem?

/-- The items of all blocks. -/
def said (s : Scene) : List TextItem := s.blocks.toList.flatMap TextBlock.items

end Scene

namespace Machine

/-- The items of all blocks, those of the open text object last. -/
def said (m : Machine) : List TextItem := m.scene.said ++ (m.block.map TextBlock.items).getD []

/-- A machine that reads for shapes has shown what a machine that reads for text has said. -/
structure ReadsAs (s t : Machine) : Prop where
  state : ∃ k, t.state = s.state.within k
  saved : List.Forall₂ (fun a b => ∃ k, b = a.within k) s.saved t.saved
  said : t.said = s.scene.shown
  closed : s.block = none

variable {s t : Machine}

theorem ReadsAs.start {a b : GraphicsState} (h : ∃ k, b = a.within k) :
    (start a).ReadsAs (start b) := ⟨h, .nil, rfl, rfl⟩

/-! ## What leaves the two as they are -/

theorem ReadsAs.withState {a b : GraphicsState} (h : s.ReadsAs t) (hab : ∃ k, b = a.within k) :
    { s with state := a }.ReadsAs { t with state := b } := ⟨hab, h.saved, h.said, h.closed⟩

theorem ReadsAs.withText (h : s.ReadsAs t) (f : TextState → TextState) :
    (s.withText f).ReadsAs (t.withText f) := by
  obtain ⟨k, hk⟩ := h.state
  exact h.withState ⟨k, by rw [hk]; rfl⟩

theorem ReadsAs.save (h : s.ReadsAs t) : s.save.ReadsAs t.save :=
  ⟨h.state, .cons h.state h.saved, h.said, h.closed⟩

theorem ReadsAs.restore (h : s.ReadsAs t) : s.restore.ReadsAs t.restore := by
  have hsaved := h.saved
  unfold Machine.restore
  cases hs : s.saved with
  | nil =>
    rw [hs, List.forall₂_nil_left_iff] at hsaved
    rw [hsaved]
    exact h
  | cons a rest =>
    rw [hs, List.forall₂_cons_left_iff] at hsaved
    obtain ⟨b, rest', hab, hrest, ht⟩ := hsaved
    rw [ht]
    exact ⟨hab, hrest, h.said, h.closed⟩

/-- Building a path, and painting what is no text. -/
theorem ReadsAs.paint {mark : Mark} (h : s.ReadsAs t)
    (hmark : ∀ state, Shape.textItem? ⟨mark, state⟩ = none) : (s.paint mark).ReadsAs t := by
  refine ⟨h.state, h.saved, ?_, h.closed⟩
  simp [Machine.paint, Scene.shown, hmark, h.said]

/-- The path and the clip play no part in what is said. -/
theorem ReadsAs.finishPath (h : s.ReadsAs t) : s.finishPath.ReadsAs t.forgetClip := by
  obtain ⟨k, hk⟩ := h.state
  unfold Machine.finishPath Machine.applyClip
  cases s.pendingClip with
  | none => exact ⟨h.state, h.saved, h.said, h.closed⟩
  | some rule => exact ⟨⟨some (s.state.within k).clip, hk⟩, h.saved, h.said, h.closed⟩

theorem ReadsAs.endPath (h : s.ReadsAs t) (use : PathUse) :
    (s.endPath use).ReadsAs t.forgetClip := by
  have hpath : ∀ path : Path, { s with path }.ReadsAs t := fun path =>
    ⟨h.state, h.saved, h.said, h.closed⟩
  exact endPath_of_finishPath (P := fun s => s.ReadsAs t.forgetClip)
    (fun path => (hpath path).finishPath) fun path => ((hpath path).paint fun _ => rfl).finishPath

/-! ## Text objects -/

theorem ReadsAs.beginText (h : s.ReadsAs t) (hclosed : t.block = none) :
    (s.beginText .shapes).ReadsAs (t.beginText .text) := by
  have htext := h.withText (·.setMatrix .identity)
  refine ⟨htext.state, h.saved, ?_, ?_⟩
  · rw [← show t.said = (s.beginText .shapes).scene.shown from h.said]
    simp [Machine.said, Machine.beginText, hclosed, TextBlock.empty]
  · simp [Machine.beginText, h.closed]

theorem ReadsAs.endText (h : s.ReadsAs t) : s.endText.ReadsAs t.endText := by
  have hs' : s.endText = s := by rw [Machine.endText, h.closed]
  rw [hs']
  unfold Machine.endText
  cases ht : t.block with
  | none => exact h
  | some block =>
    refine ⟨h.state, h.saved, ?_, h.closed⟩
    rw [← h.said]
    by_cases hempty : block.items = [] <;> simp [Machine.said, Scene.said, ht, hempty]

/-- **A string that is shown in a text object is shown by both.** -/
theorem ReadsAs.showText (h : s.ReadsAs t) (hopen : t.block.isSome = true) (record : Bool)
    (bs : Bytes) :
    (s.showText .shapes true bs).ReadsAs (t.showText .text record bs) ∧
      (t.showText .text record bs).block.isSome = true := by
  obtain ⟨k, hk⟩ := h.state
  obtain ⟨block, hblock⟩ := Option.isSome_iff_exists.mp hopen
  have htext : t.state.text = s.state.text := by rw [hk]; rfl
  refine ⟨⟨⟨k, ?_⟩, h.saved, ?_, h.closed⟩, ?_⟩
  · simp only [Machine.showText, Machine.advance, Machine.recordText, Machine.paint, if_true, hk]
    rfl
  · -- the item that is recorded is the one that the shape says
    have hitem : Shape.textItem? ⟨.text bs (s.state.text.stringText bs)
        (s.state.text.stringAdvance bs), s.state⟩ =
          some (.ofShown (t.state.text.stringText bs) (t.state.text.stringAdvance bs) t.state) := by
      rw [hk]
      rfl
    have hshown : (s.showText .shapes true bs).scene.shown =
        s.scene.shown ++ [.ofShown (t.state.text.stringText bs) (t.state.text.stringAdvance bs)
          t.state] := by
      simp [Machine.showText, Machine.advance, Machine.recordText, Machine.paint, Scene.shown,
        hitem]
    rw [hshown, ← h.said]
    simp [Machine.said, Machine.showText, Machine.advance, Machine.recordText, hblock,
      TextBlock.append]
  · simp [Machine.showText, Machine.advance, Machine.recordText, hblock]

end Machine

/-! ## Answers that lead to answers

Reading for shapes looks at images and shadings, and each may panic where reading for text passes it
over. So the two come to the same in one direction only.
-/

/-- If the one has come to an answer, so has the other, to one that is related, and both have left
sound memories. -/
def Run.Leads (lib : Library) (roots : List Dict) (S T : Scopes) {α β : Type} (R : α → β → Prop)
    (x : Except Panic α × Memory) (y : Except Panic β × Memory) : Prop :=
  ∀ a, x.1 = .ok a → ∃ b, y.1 = .ok b ∧ R a b ∧ x.2.Sound lib roots S ∧ y.2.Sound lib roots T

namespace Run

variable {lib : Library} {roots : List Dict} {S T : Scopes} {α β γ δ : Type} {R : α → β → Prop}
  {x : Run α} {y : Run β} {m n : Memory}

theorem Leads.of_error {p : Panic} {y : Except Panic β × Memory} :
    Leads lib roots S T R (.error p, m) y := fun _ h => by cases h

theorem Agree.leads (h : Agree lib roots S T R x y) (hm : m.Sound lib roots S)
    (hn : n.Sound lib roots T) : Leads lib roots S T R (x m) (y n) := by
  intro a ha
  obtain ⟨hr, hm', hn'⟩ := h.run hm hn
  rw [ha] at hr
  generalize hb : (y n).1 = b at hr
  cases hr with
  | ok hr => exact ⟨_, rfl, hr, hm', hn'⟩

theorem Leads.pure (hm : m.Sound lib roots S) (hn : n.Sound lib roots T) {a : α} {b : β}
    (h : R a b) : Leads lib roots S T R ((Pure.pure a : Run α) m) ((Pure.pure b : Run β) n) :=
  (Agree.pure h).leads hm hn

theorem Leads.bind {S' T' : Scopes} {R' : γ → δ → Prop} {f : α → Run γ} {g : β → Run δ}
    (h : Leads lib roots S T R (x m) (y n))
    (hf : ∀ a b m' n', R a b → m'.Sound lib roots S → n'.Sound lib roots T →
      Leads lib roots S' T' R' (f a m') (g b n')) :
    Leads lib roots S' T' R' ((x >>= f) m) ((y >>= g) n) := by
  intro c hc
  obtain ⟨a, ha, -⟩ := bind_eq_ok_iff.mp hc
  obtain ⟨b, hb, hr, hm', hn'⟩ := h a ha
  rw [bind_of_ok ha] at hc ⊢
  rw [bind_of_ok hb]
  exact hf a b _ _ hr hm' hn' c hc

/-- What the one looks at and the other does not. -/
theorem Leads.bind_left {R : α → α → Prop} {R' : γ → β → Prop} {f : α → Run γ}
    {y : Except Panic β × Memory} (h : Agree lib roots S S R x x) (hm : m.Sound lib roots S)
    (hf : ∀ a m', R a a → m'.Sound lib roots S → Leads lib roots S T R' (f a m') y) :
    Leads lib roots S T R' ((x >>= f) m) y := by
  intro c hc
  obtain ⟨a, ha, -⟩ := bind_eq_ok_iff.mp hc
  obtain ⟨b, hb, hr, hm', -⟩ := h.leads hm hm a ha
  obtain rfl : a = b := Except.ok.inj (ha.symm.trans hb)
  rw [bind_of_ok ha] at hc ⊢
  exact hf a _ hr hm' c hc

/-- The machine to go on with, and the one that the other goes on with. -/
theorem Leads.next? {R : Machine → Machine → Prop} {x y : Run Outcome} {s : Machine}
    (h : Leads lib roots S T (Outcome.Follows R) (x m) (y n)) (hs : x.next? m = some s) :
    ∃ t, y.next? n = some t ∧ R s t ∧ (x m).2.Sound lib roots S ∧ (y n).2.Sound lib roots T := by
  obtain ⟨outcome, hrun, hresult⟩ := next?_eq_some_iff.mp hs
  obtain ⟨outcome', hrun', hfollows, hm', hn'⟩ := h outcome hrun
  obtain ⟨t, hresult', hr⟩ := hfollows s hresult
  exact ⟨t, next?_of_result hrun' hresult', hr, hm', hn'⟩

end Run

/-! ## One operation -/

/-- What the two readings have in common stays, and a text object is open or not. What stops the
reading for shapes is outside of what is said here. -/
abbrev Outcome.ReadsAs (isOpen : Bool) : Outcome → Outcome → Prop :=
  Outcome.Follows fun s t => s.ReadsAs t ∧ t.block.isSome = isOpen

/-- Two places in which the same content is read, for its shapes in the one and for its text in the
other. -/
structure Context.ReadsAs (c d : Context) : Prop where
  alike : c.Alike d
  shapes : c.mode = .shapes
  text : d.mode = .text
  records : c.recordText = true

namespace Machine

variable {c d : Context} {roots : List Dict} {s t : Machine} {o : Operation} {isOpen : Bool}
  {mem mem' : Memory}

section

variable (hco : c.lib.Coherent roots) (hm : mem.Sound c.lib roots c.scopes)
  (hm' : mem'.Sound c.lib roots d.scopes)
include hco hm hm'

theorem paintImage_readsAs {image : Image} {inContent : Bool} (h : s.ReadsAs t)
    (himage : c.lib.HoldsStream roots image.stream) :
    Leads c.lib roots c.scopes d.scopes (Outcome.ReadsAs t.block.isSome)
      (s.paintImage c image inContent mem) ((pure (.done t) : Run Outcome) mem') := by
  refine Leads.bind_left (Steady.decode hco himage) hm fun data _ _ hm => ?_
  cases data with
  | error e => exact Leads.pure hm hm' Outcome.Follows.of_failed
  | ok data =>
    refine Leads.bind_left (Steady.of (Panic.apart (image.pixels? data c.lib.jpeg))) hm
      fun pixels _ _ hm => ?_
    cases pixels with
    | error e => exact Leads.pure hm hm' Outcome.Follows.of_failed
    | ok pixels => exact Leads.pure hm hm' (.of_result rfl rfl ⟨h.paint fun _ => rfl, rfl⟩)

theorem paintInline_readsAs {stream : StreamObj} (h : s.ReadsAs t) (hstream : stream.toObj.Plain) :
    Leads c.lib roots c.scopes d.scopes (Outcome.ReadsAs t.block.isSome)
      (s.paintInline c stream mem) ((pure (.done t) : Run Outcome) mem') := by
  have hexpand : c.lib.HoldsStream roots (InlineData.expand c.lib.order stream) :=
    .plain (InlineData.expand_plain hstream c.lib.order)
  refine Leads.bind_left (Image.read_agree hco hexpand.dict fun name =>
    Scopes.colorSpace_agree hco name (Scopes.Alike.refl c.scopes)) hm fun image _ hread hm => ?_
  cases image with
  | error e => exact Leads.pure hm hm' Outcome.Follows.of_failed
  | ok image => exact paintImage_readsAs hco hm hm' h (hread.2 ▸ hexpand)

theorem paintShading_readsAs {name : String} (h : s.ReadsAs t) :
    Leads c.lib roots c.scopes d.scopes (Outcome.ReadsAs t.block.isSome)
      (s.paintShading c name mem) ((pure (.done t) : Run Outcome) mem') := by
  refine Leads.bind_left (Scopes.shading_agree hco name (Scopes.Alike.refl c.scopes)) hm
    fun found _ _ hm => ?_
  cases found with
  | none => exact Leads.pure hm hm' (.of_result rfl rfl ⟨h, rfl⟩)
  | some shading => exact Leads.pure hm hm' (.of_result rfl rfl ⟨h.paint fun _ => rfl, rfl⟩)

end

variable (hcd : c.ReadsAs d) (hco : c.lib.Coherent roots) (hm : mem.Sound c.lib roots c.scopes)
  (hm' : mem'.Sound c.lib roots d.scopes)
include hcd hco hm hm'

/-- **An operation that paints no form and no image of a name** keeps what the two readings have in
common. -/
theorem perform_readsAs_of_kind (h : s.ReadsAs t) (ho : o.Plain)
    (hpair : o.paired? t.block.isSome = some isOpen) (hobject : o.op.kind ≠ .object) :
    Leads c.lib roots c.scopes d.scopes (Outcome.ReadsAs isOpen) (s.perform c o mem)
      (t.perform d o mem') := by
  obtain ⟨k, hk⟩ := h.state
  rw [perform_eq, perform_eq]
  unfold Operation.paired? at hpair
  cases hkind : o.op.kind with
  | object => exact absurd hkind hobject
  | save =>
    rw [hkind] at hpair
    exact Leads.pure hm hm' (.of_result rfl rfl ⟨h.save, Option.some.inj hpair⟩)
  | restore =>
    rw [hkind] at hpair
    refine Leads.pure hm hm' (.of_result rfl rfl ⟨h.restore, ?_⟩)
    rw [← Option.some.inj hpair, Machine.restore]
    cases t.saved <;> rfl
  | beginText =>
    rw [hkind, Option.ite_none_left_eq_some, Option.some.injEq] at hpair
    rw [hcd.shapes, hcd.text]
    refine Leads.pure hm hm' (.of_result rfl rfl ⟨h.beginText (by simpa using hpair.1), ?_⟩)
    exact hpair.2
  | endText =>
    rw [hkind] at hpair
    refine Leads.pure hm hm' (.of_result rfl rfl ⟨h.endText, ?_⟩)
    rw [← Option.some.inj hpair, Machine.endText]
    cases ht : t.block with
    | none => simp [ht]
    | some block => rfl
  | dash =>
    rw [hkind] at hpair
    dsimp only
    rw [hk, Operation.dashes_within]
    rcases o.dashes s.state with ⟨_ | fault, state⟩ <;>
      exact Leads.pure hm hm' (.of_result rfl rfl ⟨h.withState ⟨k, rfl⟩, Option.some.inj hpair⟩)
  | style =>
    rw [hkind] at hpair
    dsimp only
    rw [hk]
    refine (Agree.bind (Context.style_agree hcd.alike hco o s.state k) fun r r' hr => ?_).leads hm hm'
    subst hr
    cases r with
    | error fault => exact Agree.pure (.of_result rfl rfl ⟨h, Option.some.inj hpair⟩)
    | ok state =>
      exact Agree.pure (.of_result rfl rfl ⟨h.withState ⟨k, rfl⟩, Option.some.inj hpair⟩)
  | segment =>
    rw [hkind] at hpair
    simp only [hcd.shapes, hcd.text, reduceCtorEq, if_false, if_true]
    cases o.segment s.path with
    | error fault => exact Leads.pure hm hm' (.of_result rfl rfl ⟨h, Option.some.inj hpair⟩)
    | ok path =>
      exact Leads.pure hm hm' (.of_result rfl rfl ⟨⟨h.state, h.saved, h.said, h.closed⟩,
        Option.some.inj hpair⟩)
  | endPath use =>
    rw [hkind] at hpair
    simp only [hcd.shapes, hcd.text, reduceCtorEq, if_false, if_true]
    exact Leads.pure hm hm' (.of_result rfl rfl ⟨h.endPath use, Option.some.inj hpair⟩)
  | clip rule =>
    rw [hkind] at hpair
    exact Leads.pure hm hm' (.of_result rfl rfl ⟨⟨h.state, h.saved, h.said, h.closed⟩,
      Option.some.inj hpair⟩)
  | text =>
    rw [hkind, Option.ite_none_right_eq_some, Option.some.injEq] at hpair
    rw [hcd.shapes, hcd.text, hcd.records]
    dsimp only
    rcases shown_rel (R := fun s t => s.ReadsAs t ∧ t.block.isSome = true)
      (fun f _ _ h => ⟨h.1.withText f, h.2⟩) (fun bs _ _ h => h.1.showText h.2 d.recordText bs)
      o ⟨h, hpair.1⟩ with ⟨fault, hs, ht⟩ | ⟨s', t', hs, ht, h', hopen⟩
    · rw [hs, ht]
      exact Leads.pure hm hm' (.of_result rfl rfl ⟨h, hpair.1.trans hpair.2⟩)
    · rw [hs, ht]
      exact Leads.pure hm hm' (.of_result rfl rfl ⟨h', hopen.trans hpair.2⟩)
  | shading =>
    rw [hkind] at hpair
    obtain rfl := Option.some.inj hpair
    simp only [hcd.shapes, hcd.text, reduceCtorEq, if_false, if_true]
    cases o.name 0 with
    | error fault => exact Leads.pure hm hm' (.of_result rfl rfl ⟨h, rfl⟩)
    | ok name => exact paintShading_readsAs hco hm hm' h
  | image =>
    rw [hkind] at hpair
    obtain rfl := Option.some.inj hpair
    simp only [hcd.shapes, hcd.text, reduceCtorEq, if_false, if_true]
    cases hstream : o.operand 0 "image" Obj.stream? with
    | error fault => exact Leads.pure hm hm' (.of_result rfl rfl ⟨h, rfl⟩)
    | ok stream => exact paintInline_readsAs hco hm hm' h (ho.stream hstream)

end Machine

/-! ## Forms -/

/-- Two forms of one stream that are used in places where the same content is read. -/
structure Form.ReadsAs (f g : Form) : Prop where
  ref : g.ref = f.ref
  bbox : g.bbox = f.bbox
  matrix : g.matrix = f.matrix
  stream : g.stream = f.stream
  scopes : f.scopes.Alike g.scopes
  state : ∃ k, g.state = f.state.within k

/-- What comes of a form in the one place is shown where it is said in the other. -/
def Context.FormReadsAs (c d : Context) (roots : List Dict) (f : Form) (mem : Memory) : Prop :=
  ∀ g mem', f.ReadsAs g → c.lib.HoldsStream roots f.stream → mem.Sound c.lib roots f.scopes →
    mem'.Sound c.lib roots g.scopes →
    Leads c.lib roots f.scopes g.scopes (fun a b => b.said = a.shown) (c.invoke f mem)
      (d.invoke g mem')

/-- Forms that are read alike and used in places that are alike are read alike. -/
theorem Form.ReadsAs.of_anonymous {f g : Form} {S T : Scopes} {a b : GraphicsState}
    (h : f.anonymous = g.anonymous) (hST : S.Alike T) (hab : ∃ k, b = a.within k) :
    (f.usedIn S a).ReadsAs (g.usedIn T b) where
  ref := (congrArg Form.ref h).symm
  bbox := (congrArg Form.bbox h).symm
  matrix := (congrArg Form.matrix h).symm
  stream := (congrArg Form.stream h).symm
  state := hab
  scopes := by
    have hresources : f.resources.map (fun s => (⟨0, s.dict⟩ : Scope)) =
        g.resources.map fun s => ⟨0, s.dict⟩ := congrArg Form.resources h
    unfold Form.scopes Form.usedIn
    cases hf : f.resources with
    | none =>
      cases hg : g.resources with
      | none => exact hST
      | some t => rw [hf, hg] at hresources; cases hresources
    | some s =>
      cases hg : g.resources with
      | none => rw [hf, hg] at hresources; cases hresources
      | some t =>
        simp only [hf, hg, Option.map_some, Option.some.injEq, Scope.mk.injEq, true_and]
          at hresources
        exact .cons hresources hST

theorem Form.ReadsAs.initialState {f g : Form} (h : f.ReadsAs g) :
    ∃ k, g.initialState = f.initialState.within k := by
  obtain ⟨k, hk⟩ := h.state
  refine ⟨some g.initialState.clip, ?_⟩
  unfold Form.initialState
  rw [hk, h.matrix, h.bbox]
  cases f.bbox <;> rfl

namespace Machine

variable {c d : Context} {roots : List Dict} {s t : Machine} {mem mem' : Memory}
  (hcd : c.ReadsAs d) (hco : c.lib.Coherent roots)

/-- What a form shows is said where the form is used: in the open text object, if there is one. -/
theorem ReadsAs.splice {a b : Scene} (h : s.ReadsAs t) (hab : b.said = a.shown) :
    (s.splice a).ReadsAs (t.splice b) ∧ (t.splice b).block.isSome = t.block.isSome := by
  have hs : s.splice a = { s with scene :=
      { shapes := s.scene.shapes ++ a.shapes, blocks := s.scene.blocks ++ a.blocks } } := by
    simp only [Machine.splice, h.closed]
  have hshown : (s.splice a).scene.shown = t.said ++ b.said := by
    rw [hs, hab, h.said]
    simp [Scene.shown]
  have hstate : (s.splice a).state = s.state ∧ (s.splice a).saved = s.saved ∧
      (s.splice a).block = s.block := by
    rw [hs]
    exact ⟨rfl, rfl, rfl⟩
  cases ht : t.block with
  | none =>
    refine ⟨⟨?_, ?_, ?_, hstate.2.2.trans h.closed⟩, ?_⟩
    · rw [hstate.1]; simpa only [Machine.splice, ht] using h.state
    · rw [hstate.2.1]; simpa only [Machine.splice, ht] using h.saved
    · rw [hshown]; simp [Machine.said, Machine.splice, Scene.said, ht]
    · simp [Machine.splice, ht]
  | some block =>
    refine ⟨⟨?_, ?_, ?_, hstate.2.2.trans h.closed⟩, ?_⟩
    · rw [hstate.1]; simpa only [Machine.splice, ht] using h.state
    · rw [hstate.2.1]; simpa only [Machine.splice, ht] using h.saved
    · rw [hshown]; simp [Machine.said, Machine.splice, Scene.said, ht, TextBlock.append]
    · simp [Machine.splice, ht]

include hcd hco

/-- **Painting an image or form of a name** keeps what the two readings have in common, if the form
is read alike. -/
theorem paintObject_readsAs {name : String} (h : s.ReadsAs t)
    (hm : mem.Sound c.lib roots c.scopes) (hm' : mem'.Sound c.lib roots d.scopes)
    (hform : ∀ form mem₁, c.scopes.xobject? c.lib name mem = (.ok (some (.form form)), mem₁) →
      c.FormReadsAs d roots (form.usedIn c.scopes s.state) mem₁) :
    Leads c.lib roots c.scopes d.scopes (Outcome.ReadsAs t.block.isSome) (s.paintObject c name mem)
      (t.paintObject d name mem') := by
  obtain ⟨hx, hm₁, hm₁'⟩ := (Scopes.xobject_agree hco name hcd.alike.scopes).run hm hm'
  rcases hf : c.scopes.xobject? c.lib name mem with ⟨found, mem₁⟩
  rcases hg : d.scopes.xobject? c.lib name mem' with ⟨found', mem₁'⟩
  rw [hf, hg] at hx
  rw [hf] at hm₁
  rw [hg] at hm₁'
  unfold paintObject
  rw [hcd.alike.lib, hcd.shapes, hcd.text]
  cases hx with
  | panic p =>
    rw [bind_of_error (congrArg Prod.fst hf)]
    exact .of_error
  | ok hx =>
    rw [bind_of_eq hf, bind_of_eq hg]
    cases hx with
    | none => exact Leads.pure hm₁ hm₁' (.of_result rfl rfl ⟨h, rfl⟩)
    | @some x y hxy =>
      cases x with
      | image i =>
        cases y with
        | form g => exact hxy.elim
        -- reading for text passes over the image, but an image may stop the reading for shapes
        | image j => exact paintImage_readsAs hco hm₁ hm₁' h hxy.2
      | form f =>
        cases y with
        | image j => exact hxy.elim
        | form g =>
          have hform' := Form.ReadsAs.of_anonymous hxy.1 hcd.alike.scopes h.state
          -- each of the two has made a scope of its own for the resources of the form
          have hm₂ := Scopes.sound_of_form hco (List.Subset.refl _) hm hf
          have hm₂' := Scopes.sound_of_form hco (List.Subset.refl _) hm' hg
          refine (hform f mem₁ hf _ mem₁' hform' hxy.2 hm₂ hm₂').bind fun a b _ _ hab hm₃ hm₃' => ?_
          obtain ⟨hsplice, hopen⟩ := h.splice hab
          exact Leads.pure (hm₃.subset (List.subset_append_right _ _))
            (hm₃'.subset (List.subset_append_right _ _)) (.of_result rfl rfl ⟨hsplice, hopen⟩)

/-- **One operation keeps what the two readings have in common**, if the form that it uses is read
alike. -/
theorem perform_readsAs {o : Operation} {isOpen : Bool} (h : s.ReadsAs t) (ho : o.Plain)
    (hpair : o.paired? t.block.isSome = some isOpen) (hm : mem.Sound c.lib roots c.scopes)
    (hm' : mem'.Sound c.lib roots d.scopes)
    (hform : ∀ form mem₁, s.Uses c [o] mem form mem₁ → c.FormReadsAs d roots form mem₁) :
    Leads c.lib roots c.scopes d.scopes (Outcome.ReadsAs isOpen) (s.perform c o mem)
      (t.perform d o mem') := by
  by_cases hobject : o.op.kind = .object
  · have hop := Operator.eq_paintXObject hobject
    unfold Operation.paired? at hpair
    rw [hobject] at hpair
    obtain rfl := Option.some.inj hpair
    rw [perform_eq, perform_eq, hobject]
    dsimp only
    cases hname : o.name 0 with
    | error fault => exact Leads.pure hm hm' (.of_result rfl rfl ⟨h, rfl⟩)
    | ok name =>
      exact paintObject_readsAs hcd hco h hm hm' fun form mem₁ hx =>
        hform _ _ (.here hop hname hx)
  · exact perform_readsAs_of_kind hcd hco hm hm' h ho hpair hobject

/-! ## A whole run -/

/-- **Operations that are carried out to the end** for shapes are carried out to the end for text,
and keep what the two readings have in common. -/
theorem performAll_readsAs {ops : List Operation} {isOpen : Bool} {final : Machine}
    (h : s.ReadsAs t) (hplain : ∀ o ∈ ops, o.Plain)
    (hpair : Operation.pairedFrom? t.block.isSome ops = some isOpen)
    (hm : mem.Sound c.lib roots c.scopes) (hm' : mem'.Sound c.lib roots d.scopes)
    (hform : ∀ form mem₁, s.Uses c ops mem form mem₁ → c.FormReadsAs d roots form mem₁)
    (hfinal : (s.performAll c ops mem).1 = .ok (.ok final)) :
    ∃ final', (t.performAll d ops mem').1 = .ok (.ok final') ∧ final.ReadsAs final' ∧
      final'.block.isSome = isOpen ∧ (s.performAll c ops mem).2.Sound c.lib roots c.scopes ∧
      (t.performAll d ops mem').2.Sound c.lib roots d.scopes := by
  induction ops generalizing s t mem mem' with
  | nil =>
    cases hfinal
    exact ⟨t, rfl, h, Option.some.inj hpair, hm, hm'⟩
  | cons o rest ih =>
    obtain ⟨ho, hrest⟩ := List.forall_mem_cons.mp hplain
    obtain ⟨isOpen', hpair, hpair'⟩ := Option.bind_eq_some_iff.mp hpair
    obtain ⟨s', hs', hfinal⟩ := next?_of_performAll hfinal
    obtain ⟨t', ht', ⟨h', rfl⟩, hm₁, hm₁'⟩ := (perform_readsAs hcd hco h ho hpair hm hm'
      fun form mem₁ huse => hform form mem₁ huse.first).next? hs'
    rw [performAll_of_next? hs', performAll_of_next? ht']
    exact ih h' hrest hpair' hm₁ hm₁' (fun form mem₁ huse => hform form mem₁ (.later hs' huse))
      hfinal

end Machine

/-! ## A reading with all that it opens -/

namespace Content

variable {lib : Library} {options : Options} {roots : List Dict}

/-- The same content, read in two places. -/
structure Reading.ReadsAs (r r' : Reading) : Prop where
  room : r'.room = r.room
  inProgress : r'.inProgress = r.inProgress
  scopes : r.scopes.Alike r'.scopes
  state : ∃ k, r'.state = r.state.within k
  data : r'.data = r.data

theorem Reading.ReadsAs.context {r r' : Reading} (h : r.ReadsAs r')
    (htext : options.recordText = true) :
    (r.context lib .shapes options).ReadsAs (r'.context lib .text options) :=
  ⟨⟨rfl, h.scopes⟩, rfl, rfl, htext⟩

/-- Forms that are read alike open readings that are read alike, or neither opens one. -/
theorem Reading.ReadsAs.enter {r r' : Reading} {f g : Form} (hco : lib.Coherent roots)
    (h : r.ReadsAs r') (hfg : f.ReadsAs g) (hstream : lib.HoldsStream roots f.stream) :
    Agree lib roots f.scopes g.scopes (Option.Rel Reading.ReadsAs) (r.enter lib f)
      (r'.enter lib g) := by
  have huse : inUse r'.inProgress g = inUse r.inProgress f := by
    rw [inUse, inUse, h.inProgress, hfg.ref]
  unfold Reading.enter
  rw [h.room]
  cases r.room with
  | zero => exact Agree.pure .none
  | succ room =>
    dsimp only
    rw [huse]
    cases inUse r.inProgress f with
    | true => exact Agree.pure .none
    | false =>
      simp only [Bool.false_eq_true, if_false, Form.data, hfg.stream]
      refine Agree.bind (Steady.decode hco hstream) fun answer _ heq => ?_
      subst heq
      cases answer with
      | error e => exact Agree.pure .none
      | ok decoded =>
        refine Agree.pure (.some ⟨rfl, ?_, hfg.scopes, hfg.initialState, rfl⟩)
        dsimp only
        rw [h.inProgress, hfg.ref]

/-- Everything that is read, at any depth, is read to the end and pairs its text operators. -/
def WellPaired (lib : Library) (options : Options) (r : Reading) (mem : Memory) : Prop :=
  ∀ depth s mem', Nested lib .shapes options depth r mem s mem' →
    (∃ m, (s.run lib .shapes options mem').1 = .ok (.ok m)) ∧ Operation.Paired (Operation.readAll s.data)

theorem WellPaired.inner {r child : Reading} {form : Form} {mem mem₁ mem₂ : Memory}
    (h : WellPaired lib options r mem)
    (huse : (Machine.start r.state).Uses (r.context lib .shapes options) (Operation.readAll r.data)
      mem form mem₁)
    (henter : r.enter lib form mem₁ = (.ok (some child), mem₂)) : WellPaired lib options child mem₂ :=
  fun depth s mem' hs => h (depth + 1) s mem' (.inner huse henter hs)

/-- Both readings come to an end, and what the one shows the other says. -/
def Reading.RunsAs (lib : Library) (options : Options) (roots : List Dict) (r r' : Reading)
    (mem mem' : Memory) : Prop :=
  ∃ m m', (r.run lib .shapes options mem).1 = .ok (.ok m) ∧
    (r'.run lib .text options mem').1 = .ok (.ok m') ∧
    m'.scene.said = m.scene.shown ∧ (r.run lib .shapes options mem).2.Sound lib roots r.scopes ∧
    (r'.run lib .text options mem').2.Sound lib roots r'.scopes

/-- A form is read alike if the readings that it opens come to the same. -/
theorem Reading.ReadsAs.formReadsAs {r r' : Reading} {form : Form} {mem mem₁ : Memory}
    (hco : lib.Coherent roots) (h : r.ReadsAs r') (hgood : WellPaired lib options r mem)
    (huse : (Machine.start r.state).Uses (r.context lib .shapes options) (Operation.readAll r.data)
      mem form mem₁)
    (hopened : ∀ child child' mem₂ mem₂', child.room < r.room → child.ReadsAs child' →
      mem₂.Sound lib roots child.scopes → mem₂'.Sound lib roots child'.scopes →
      WellPaired lib options child mem₂ →
      child.RunsAs lib options roots child' mem₂ mem₂') :
    (r.context lib .shapes options).FormReadsAs (r'.context lib .text options) roots form mem₁ := by
  intro g mem₁' hfg hstream hm hm'
  obtain ⟨hchild, hm₂, hm₂'⟩ := (h.enter hco hfg hstream).run hm hm'
  change Leads lib roots form.scopes g.scopes _
    (invoke lib .shapes options r.room r.inProgress form mem₁)
    (invoke lib .text options r'.room r'.inProgress g mem₁')
  rw [invoke_eq, invoke_eq]
  rcases hf : r.enter lib form mem₁ with ⟨opened, mem₂⟩
  rcases hg : r'.enter lib g mem₁' with ⟨opened', mem₂'⟩
  rw [hf] at hchild hm₂
  rw [hg] at hchild hm₂'
  cases hchild with
  | panic p =>
    rw [bind_of_error (congrArg Prod.fst hf)]
    exact .of_error
  | ok hchild =>
    rw [bind_of_eq hf, bind_of_eq hg]
    cases hchild with
    | none => exact Leads.pure hm₂ hm₂' rfl
    | @some child child' hchild =>
      obtain ⟨hroom, _, _, hscopes, _⟩ := Reading.enter_eq_some hf
      obtain ⟨_, _, _, hscopes', _⟩ := Reading.enter_eq_some hg
      obtain ⟨m, m', hm₃, hm₃', hsaid, hsound, hsound'⟩ :=
        hopened child child' mem₂ mem₂' (by omega) hchild (hscopes ▸ hm₂) (hscopes' ▸ hm₂')
          (hgood.inner huse hf)
      dsimp only
      rw [Reading.yield_of_run hm₃, Reading.yield_of_run hm₃', ← hscopes, ← hscopes']
      exact Leads.pure hsound hsound' hsaid

/-- **A reading for text says what the reading for shapes shows**, with all the forms that the two
open. The induction is on the room that is left for forms. -/
theorem Reading.run_readsAs (htext : options.recordText = true) (hco : lib.Coherent roots)
    (room : Nat) : ∀ (r r' : Reading) (mem mem' : Memory), r.room = room → r.ReadsAs r' →
      mem.Sound lib roots r.scopes → mem'.Sound lib roots r'.scopes →
      WellPaired lib options r mem → r.RunsAs lib options roots r' mem mem' := by
  induction room using Nat.strongRecOn with
  | ind room ih =>
    intro r r' mem mem' hroom h hm hm' hgood
    obtain ⟨⟨m, hrun⟩, hpaired⟩ := hgood 0 r mem .self
    obtain ⟨m', hrun', hreads, hclosed, hsound, hsound'⟩ :=
      Machine.performAll_readsAs (c := r.context lib .shapes options)
        (d := r'.context lib .text options) (h.context htext) hco (.start h.state)
        (Operation.readAll_plain r.data) hpaired hm hm'
        (fun form mem₁ huse => h.formReadsAs hco hgood huse
          fun child child' mem₂ mem₂' hlt =>
            ih child.room (hroom ▸ hlt) child child' mem₂ mem₂' rfl)
        hrun
    have hrun'' : r'.run lib .text options mem' =
        (Machine.start r'.state).performAll (r'.context lib .text options)
          (Operation.readAll r.data) mem' := by
      rw [Reading.run, h.data]
    have hnone : m'.block = none := by simpa using hclosed
    refine ⟨m, m', hrun, hrun'' ▸ hrun', ?_, hsound, hrun'' ▸ hsound'⟩
    rw [← hreads.said, Machine.said, hnone]
    simp

/-- **Reading for text says what reading for shapes shows.** The two may start from different
memories, as long as both remember what is true; streams have to be told apart by their references,
as they are in a library that has been read from a file. -/
theorem interpret_text_eq_shapes {scopes : Scopes} {state : GraphicsState} {data : Bytes}
    {mem mem' : Memory} {painted : Scene} (htext : options.recordText = true)
    (hco : lib.Coherent (scopes.map Scope.dict))
    (hm : mem.Sound lib (scopes.map Scope.dict) scopes)
    (hm' : mem'.Sound lib (scopes.map Scope.dict) scopes)
    (hpainted : (interpret lib .shapes options scopes state data mem).1 = .ok (.ok painted))
    (hgood : WellPaired lib options (.root options scopes state data) mem) :
    ∃ told, (interpret lib .text options scopes state data mem').1 = .ok (.ok told) ∧
      told.blocks.toList.flatMap TextBlock.items =
        painted.shapes.toList.filterMap Shape.textItem? := by
  obtain ⟨m, m', hrun, hrun', hsaid, _⟩ := Reading.run_readsAs htext hco _
    (.root options scopes state data) (.root options scopes state data) mem mem' rfl
    ⟨rfl, rfl, Scopes.Alike.refl scopes, ⟨none, rfl⟩, rfl⟩ hm hm' hgood
  rw [interpret_eq, Reading.scene_eq, map_of_ok hrun] at hpainted
  cases hpainted
  refine ⟨m'.scene, ?_, hsaid⟩
  rw [interpret_eq, Reading.scene_eq, map_of_ok hrun']
  rfl

theorem readAll_clippedText :
    Operation.readAll (Bytes.ofAscii "W n BT(A)Tj ET") =
      [⟨.clip, []⟩, ⟨.endPath, []⟩, ⟨.beginText, []⟩, ⟨.showText, [.str (Bytes.ofAscii "A")]⟩,
        ⟨.endText, []⟩] := by cbv

/-- Content that clips and shows one string, which only the reading for shapes sees clipped. -/
theorem interpret_text_eq_shapes_clippedText :
    let data := Bytes.ofAscii "W n BT(A)Tj ET"
    let mem := Memory.initial .empty 1
    ∃ painted told, (interpret .empty .shapes .default [] .initial data mem).1 = .ok (.ok painted) ∧
      (interpret .empty .text .default [] .initial data mem).1 = .ok (.ok told) ∧
      painted.shapes.size = 1 ∧
      (told.blocks.toList.flatMap TextBlock.items).map TextItem.text = ["A"] ∧
      told.blocks.toList.flatMap TextBlock.items =
        painted.shapes.toList.filterMap Shape.textItem? := by
  intro data mem
  have hco : Library.empty.Coherent ([].map Scope.dict) := Library.Labelled.empty.coherent (by simp)
  have hrun : ∃ m, ((Reading.root .default [] .initial data).run .empty .shapes .default mem).1 =
      .ok (.ok m) ∧ m.scene.shapes.size = 1 ∧ m.scene.shown.map TextItem.text = ["A"] := by
    unfold Reading.run
    rw [show (Reading.root .default [] .initial data).data = data from rfl, readAll_clippedText]
    exact ⟨_, rfl, rfl, rfl⟩
  obtain ⟨m, hm, hsize, htext⟩ := hrun
  have hgood : WellPaired .empty .default (.root .default [] .initial data) mem := by
    intro depth s mem' h
    cases h with
    | self =>
      refine ⟨⟨m, hm⟩, ?_⟩
      rw [show (Reading.root .default [] .initial data).data = data from rfl, readAll_clippedText]
      rfl
    | inner huse =>
      rw [show (Reading.root .default [] .initial data).data = data from rfl,
        readAll_clippedText] at huse
      exact absurd huse (Machine.not_uses (by decide))
  have hpainted : (interpret .empty .shapes .default [] .initial data mem).1 =
      .ok (.ok m.scene) := by
    rw [interpret_eq, Reading.scene_eq, map_of_ok hm]
    rfl
  obtain ⟨told, htold, hsaid⟩ := interpret_text_eq_shapes rfl hco (Memory.Sound.initial 1)
    (Memory.Sound.initial 1) hpainted hgood
  exact ⟨m.scene, told, hpainted, htold, hsize, hsaid ▸ htext, hsaid⟩

end Content

end PdfScene
