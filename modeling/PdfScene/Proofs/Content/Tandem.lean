import PdfScene.Proofs.Content.Inlining
import PdfScene.Proofs.Content.TextReading

/-!
# Machines in tandem

The same operations on two machines that are in the same state lead to two machines that are in the
same state, whatever has come of the content before and whatever the two memories hold, as long as
both hold what is true. `Machine.Tandem` is that relation. How much more the two have in common
depends on where they start: nothing if the one has painted what the other has not, and all but the
numbers issued to images if the two read the same content. So the relation has a `Comparison` in it,
of what has come of the content, of which only so much is asked that the operations keep it.

The two may see their resources under different numbers of scopes. They stop together: what stops
content is an image, and an image that cannot be painted from one memory cannot be painted from the
other.
-/

set_option autoImplicit false

namespace PdfScene

open Run

/-! ## Results that match -/

theorem Matched.exists_ok {ε α β : Type} {R : α → β → Prop} {x : Except ε α} {y : Except ε β}
    {a : α} (h : Matched R x y) (hx : x = .ok a) : ∃ b, y = .ok b ∧ R a b := by
  subst hx
  cases h with
  | ok hab => exact ⟨_, rfl, hab⟩

/-- Two operations that lead on to related machines, or neither leads on. -/
abbrev Outcome.Matched (R : Machine → Machine → Prop) (x y : Outcome) : Prop :=
  PdfScene.Matched R x.result y.result

theorem Outcome.Matched.of_result {R : Machine → Machine → Prop} {x y : Outcome} {s t : Machine}
    (hx : x.result = .ok s) (hy : y.result = .ok t) (h : R s t) : x.Matched R y := by
  unfold Outcome.Matched
  rw [hx, hy]
  exact .ok h

theorem Outcome.Matched.of_failed {R : Machine → Machine → Prop} (e e' : Error) :
    (Outcome.failed e).Matched R (.failed e') := .error e e'

namespace Machine

/-! ## The relation -/

/-- A comparison of two machines by what has come of their content, that operations keep. -/
structure Comparison where
  machines : Machine → Machine → Prop
  /-- What may come of two forms where they are used. -/
  scenes : Scene → Scene → Prop
  /-- Nothing but the scenes and the open text objects is compared. -/
  congr {s t s' t' : Machine} : machines s t → s'.scene = s.scene → s'.block = s.block →
    t'.scene = t.scene → t'.block = t.block → machines s' t'
  paint {s t : Machine} {mark mark' : Mark} : machines s t → t.state = s.state →
    (∀ state, Shape.anonymous ⟨mark, state⟩ = Shape.anonymous ⟨mark', state⟩) →
    machines (s.paint mark) (t.paint mark')
  beginText {s t : Machine} (mode : Mode) : machines s t →
    machines (s.beginText mode) (t.beginText mode)
  endText {s t : Machine} : machines s t → machines s.endText t.endText
  say {s t : Machine} (items : List TextItem) : machines s t →
    machines { s with block := s.block.map (·.append items) }
      { t with block := t.block.map (·.append items) }
  splice {s t : Machine} {a b : Scene} : machines s t → scenes a b →
    machines (s.splice a) (t.splice b)

/-- Two machines that go through the same states, with what has come of their content compared. -/
structure Tandem (cmp : Comparison) (s t : Machine) : Prop where
  state : t.state = s.state
  saved : t.saved = s.saved
  path : t.path = s.path
  pendingClip : t.pendingClip = s.pendingClip
  compared : cmp.machines s t

variable {cmp : Comparison} {s t : Machine}

theorem Tandem.withState (h : Tandem cmp s t) (state : GraphicsState) :
    Tandem cmp { s with state } { t with state } :=
  ⟨rfl, h.saved, h.path, h.pendingClip, cmp.congr h.compared rfl rfl rfl rfl⟩

theorem Tandem.withPath (h : Tandem cmp s t) (path : Path) :
    Tandem cmp { s with path } { t with path } :=
  ⟨h.state, h.saved, rfl, h.pendingClip, cmp.congr h.compared rfl rfl rfl rfl⟩

theorem Tandem.withPendingClip (h : Tandem cmp s t) (pendingClip : Option FillRule) :
    Tandem cmp { s with pendingClip } { t with pendingClip } :=
  ⟨h.state, h.saved, h.path, rfl, cmp.congr h.compared rfl rfl rfl rfl⟩

theorem Tandem.withText (h : Tandem cmp s t) (f : TextState → TextState) :
    Tandem cmp (s.withText f) (t.withText f) := by
  simpa [Machine.withText, h.state] using h.withState _

theorem Tandem.save (h : Tandem cmp s t) : Tandem cmp s.save t.save :=
  ⟨h.state, congrArg₂ List.cons h.state h.saved, h.path, h.pendingClip,
    cmp.congr h.compared rfl rfl rfl rfl⟩

theorem Tandem.restore (h : Tandem cmp s t) : Tandem cmp s.restore t.restore := by
  unfold Machine.restore
  rw [h.saved]
  cases s.saved with
  | nil => exact h
  | cons state saved =>
    exact ⟨rfl, rfl, h.path, h.pendingClip, cmp.congr h.compared rfl rfl rfl rfl⟩

theorem Tandem.paint {mark mark' : Mark} (h : Tandem cmp s t)
    (hmark : ∀ state, Shape.anonymous ⟨mark, state⟩ = Shape.anonymous ⟨mark', state⟩) :
    Tandem cmp (s.paint mark) (t.paint mark') :=
  ⟨h.state, h.saved, h.path, h.pendingClip, cmp.paint h.compared h.state hmark⟩

theorem Tandem.finishPath (h : Tandem cmp s t) : Tandem cmp s.finishPath t.finishPath := by
  unfold Machine.finishPath Machine.applyClip
  rw [h.pendingClip]
  cases s.pendingClip with
  | none => exact h.withPath .empty
  | some rule =>
    simp only [h.state, h.path]
    exact ((h.withState _).withPendingClip none).withPath .empty

theorem Tandem.endPath (h : Tandem cmp s t) (use : PathUse) :
    Tandem cmp (s.endPath use) (t.endPath use) := by
  rw [endPath_eq, endPath_eq, h.path]
  dsimp only
  generalize (if use.close = true then s.path.close else s.path) = path
  split
  · exact (h.withPath path).finishPath
  · exact ((h.withPath path).paint fun _ => rfl).finishPath

theorem Tandem.beginText (h : Tandem cmp s t) (mode : Mode) :
    Tandem cmp (s.beginText mode) (t.beginText mode) :=
  ⟨(h.withText (·.setMatrix .identity)).state, h.saved, h.path, h.pendingClip,
    cmp.beginText mode h.compared⟩

/-- The end of a text object leaves the state alone. -/
theorem endText_eq (m : Machine) :
    m.endText = { m with scene := m.endText.scene, block := m.endText.block } := by
  unfold Machine.endText
  cases m.block <;> rfl

theorem Tandem.endText (h : Tandem cmp s t) : Tandem cmp s.endText t.endText := by
  have hcompared := cmp.endText h.compared
  rw [endText_eq s, endText_eq t] at hcompared ⊢
  exact ⟨h.state, h.saved, h.path, h.pendingClip, hcompared⟩

/-- What comes of a form leaves the state alone. -/
theorem splice_eq (m : Machine) (a : Scene) :
    m.splice a = { m with scene := (m.splice a).scene, block := (m.splice a).block } := by
  unfold Machine.splice
  cases m.block <;> rfl

theorem Tandem.splice {a b : Scene} (h : Tandem cmp s t) (hab : cmp.scenes a b) :
    Tandem cmp (s.splice a) (t.splice b) := by
  have hcompared := cmp.splice h.compared hab
  rw [splice_eq s, splice_eq t] at hcompared ⊢
  exact ⟨h.state, h.saved, h.path, h.pendingClip, hcompared⟩

theorem Tandem.showText (h : Tandem cmp s t) (mode : Mode) (record : Bool) (bs : Bytes) :
    Tandem cmp (s.showText mode record bs) (t.showText mode record bs) := by
  have hrecord : Tandem cmp (s.recordText mode record bs) (t.recordText mode record bs) := by
    unfold Machine.recordText
    rw [h.state]
    cases mode with
    | text =>
      have hsaid := cmp.say [.ofShown (s.state.text.stringText bs)
        (s.state.text.stringAdvance bs) s.state] h.compared
      exact ⟨rfl, h.saved, h.path, h.pendingClip, cmp.congr hsaid rfl rfl rfl rfl⟩
    | shapes =>
      cases record with
      | false => exact h
      | true => exact h.paint fun _ => rfl
  have hadvance := hrecord.withText (·.advance (s.state.text.stringAdvance bs))
  unfold Machine.showText
  rw [h.state]
  exact hadvance

end Machine

/-! ## One operation -/

/-- Two contexts in which the same content is read in the same way. -/
structure Context.Tandem (c d : Context) : Prop where
  alike : c.Alike d
  mode : d.mode = c.mode
  recordText : d.recordText = c.recordText

theorem Context.Tandem.refl (c : Context) : c.Tandem c := ⟨.refl c, rfl, rfl⟩

/-- What comes of one form in the two contexts compares. -/
def Context.FormsCompare (c d : Context) (roots : List Dict) (cmp : Machine.Comparison) : Prop :=
  ∀ f g : Form, f.ReadsAs g → g.state = f.state → c.lib.HoldsStream roots f.stream →
    Agree c.lib roots f.scopes g.scopes cmp.scenes (c.invoke f) (d.invoke g)

namespace Machine

variable {cmp : Comparison} {c d : Context} {roots : List Dict} {s t : Machine} {o : Operation}
  (hcd : c.Tandem d) (hco : c.lib.Coherent roots)
include hcd hco

theorem paintImage_tandem {i j : Image} {inContent : Bool} (h : Tandem cmp s t) (hij : i.Alike j)
    (himage : c.lib.HoldsStream roots i.stream) :
    Agree c.lib roots c.scopes d.scopes (Outcome.Matched (Tandem cmp))
      (s.paintImage c i inContent) (t.paintImage d j inContent) := by
  have hpixels := fun data => hij.pixels data c.lib.jpeg
  obtain ⟨id, rfl⟩ := hij.eq_withId
  unfold paintImage
  rw [hcd.alike.lib]
  refine Agree.bind (Steady.decode hco himage) fun data _ heq => ?_
  subst heq
  cases data with
  | error e => exact Agree.pure (.of_failed e e)
  | ok data =>
    refine Agree.bind (Agree.of (hpixels data)) fun _ _ hboth => ?_
    cases hboth with
    | error e e' => exact Agree.pure (.of_failed e e')
    | ok heq =>
      subst heq
      refine Agree.pure (.of_result rfl rfl (h.paint fun state => ?_))
      simp only [Shape.anonymous]
      rw [show Image.anonymous { i with id } = i.anonymous from hij.symm]

theorem paintInline_tandem {stream : StreamObj} (h : Tandem cmp s t)
    (hstream : stream.toObj.Plain) :
    Agree c.lib roots c.scopes d.scopes (Outcome.Matched (Tandem cmp)) (s.paintInline c stream)
      (t.paintInline d stream) := by
  have hexpand : c.lib.HoldsStream roots (InlineData.expand c.lib.order stream) :=
    .plain (InlineData.expand_plain hstream c.lib.order)
  unfold Machine.paintInline
  rw [hcd.alike.lib]
  refine Agree.bind (Image.read_agree hco hexpand.dict fun name =>
    Scopes.colorSpace_agree hco name hcd.alike.scopes) fun r r' hr => ?_
  cases r <;> cases r'
  · exact Agree.pure (.of_failed _ _)
  · exact hr.elim
  · exact hr.elim
  · exact paintImage_tandem hcd hco h hr.1 (hr.2 ▸ hexpand)

theorem paintShading_tandem {name : String} (h : Tandem cmp s t) :
    Agree c.lib roots c.scopes d.scopes (Outcome.Matched (Tandem cmp)) (s.paintShading c name)
      (t.paintShading d name) := by
  unfold Machine.paintShading
  rw [hcd.alike.lib]
  refine Agree.bind (Scopes.shading_agree hco name hcd.alike.scopes) fun found _ heq => ?_
  subst heq
  cases found with
  | none => exact Agree.pure (.of_result rfl rfl h)
  | some shading => exact Agree.pure (.of_result rfl rfl (h.paint fun _ => rfl))

variable (hforms : c.FormsCompare d roots cmp)
include hforms

/-- What a name leads to is painted alike. A form has a scope of its own in each memory, which the
machine does not see once the form has been painted. -/
theorem paintObject_tandem {name : String} (h : Tandem cmp s t) :
    Agree c.lib roots c.scopes d.scopes (Outcome.Matched (Tandem cmp)) (s.paintObject c name)
      (t.paintObject d name) := by
  intro F G mem mem' hF hG hm hm'
  obtain ⟨hx, hm₁, hm₁'⟩ :=
    Scopes.xobject_agree hco name hcd.alike.scopes F G mem mem' hF hG hm hm'
  rcases hf : c.scopes.xobject? c.lib name mem with ⟨found, mem₁⟩
  rcases hg : d.scopes.xobject? c.lib name mem' with ⟨found', mem₁'⟩
  rw [hf, hg] at hx
  rw [hf] at hm₁
  rw [hg] at hm₁'
  unfold paintObject
  rw [hcd.alike.lib, hcd.mode]
  cases hx with
  | panic p =>
    rw [bind_of_error (congrArg Prod.fst hf), bind_of_error (congrArg Prod.fst hg), hf, hg]
    exact ⟨.panic p, hm₁, hm₁'⟩
  | ok hx =>
    rw [bind_of_eq hf, bind_of_eq hg]
    cases hx with
    | none => exact Agree.pure (Outcome.Matched.of_result rfl rfl h) F G _ _ hF hG hm₁ hm₁'
    | @some x y hxy =>
      cases x with
      | image i =>
        cases y with
        | form g => exact hxy.elim
        | image j =>
          dsimp only
          split
          · exact paintImage_tandem hcd hco h hxy.1 hxy.2 F G mem₁ mem₁' hF hG hm₁ hm₁'
          · exact Agree.pure (Outcome.Matched.of_result rfl rfl h) F G _ _ hF hG hm₁ hm₁'
      | form f =>
        cases y with
        | image j => exact hxy.elim
        | form g =>
          have hreads := Form.ReadsAs.of_anonymous hxy.1 hcd.alike.scopes ⟨none, h.state⟩
          have hm₂ := Scopes.sound_of_form hco hF hm hf
          have hm₂' := Scopes.sound_of_form hco hG hm' hg
          have hspliced {S T : Scopes} (a b : Scene) (hab : cmp.scenes a b) :
              Agree c.lib roots S T (Outcome.Matched (Tandem cmp)) (pure (.done (s.splice a)))
                (pure (.done (t.splice b))) :=
            Agree.pure (.of_result rfl rfl (h.splice hab))
          obtain ⟨hmatched, hm₃, hm₃'⟩ := (hforms _ _ hreads h.state hxy.2).bind hspliced _ _ mem₁
            mem₁' (Form.scopes_subset hF) (Form.scopes_subset hG) hm₂ hm₂'
          exact ⟨hmatched, hm₃.subset (List.subset_append_right _ _),
            hm₃'.subset (List.subset_append_right _ _)⟩

/-- **One operation on two machines in tandem** leaves them in tandem, or stops both. -/
theorem perform_tandem (h : Tandem cmp s t) (ho : o.Plain) :
    Agree c.lib roots c.scopes d.scopes (Outcome.Matched (Tandem cmp)) (s.perform c o)
      (t.perform d o) := by
  rw [perform_eq, perform_eq, hcd.mode, hcd.recordText]
  cases o.op.kind with
  | save => exact Agree.pure (.of_result rfl rfl h.save)
  | restore => exact Agree.pure (.of_result rfl rfl h.restore)
  | beginText => exact Agree.pure (.of_result rfl rfl (h.beginText c.mode))
  | endText => exact Agree.pure (.of_result rfl rfl h.endText)
  | dash =>
    dsimp only
    rw [h.state]
    rcases o.dashes s.state with ⟨_ | fault, state⟩ <;>
      exact Agree.pure (.of_result rfl rfl (h.withState state))
  | style =>
    dsimp only
    rw [h.state]
    refine Agree.bind (Context.style_agree hcd.alike hco o s.state none) fun r r' hr => ?_
    subst hr
    cases r with
    | error fault => exact Agree.pure (.of_result rfl rfl h)
    | ok state => exact Agree.pure (.of_result rfl rfl (h.withState state))
  | segment =>
    dsimp only
    split
    · exact Agree.pure (.of_result rfl rfl h)
    · rw [h.path]
      cases o.segment s.path with
      | error fault => exact Agree.pure (.of_result rfl rfl h)
      | ok path => exact Agree.pure (.of_result rfl rfl (h.withPath path))
  | endPath use =>
    dsimp only
    split
    · exact Agree.pure (.of_result rfl rfl (h.withPendingClip none))
    · exact Agree.pure (.of_result rfl rfl (h.endPath use))
  | clip rule => exact Agree.pure (.of_result rfl rfl (h.withPendingClip _))
  | text =>
    rcases shown_rel (R := Tandem cmp) (fun f _ _ h => h.withText f)
      (fun bs _ _ h => h.showText c.mode c.recordText bs) o h with
      ⟨fault, hs, ht⟩ | ⟨s', t', hs, ht, h'⟩
    · dsimp only
      rw [hs, ht]
      exact Agree.pure (.of_result rfl rfl h)
    · dsimp only
      rw [hs, ht]
      exact Agree.pure (.of_result rfl rfl h')
  | object =>
    dsimp only
    cases o.name 0 with
    | error fault => exact Agree.pure (.of_result rfl rfl h)
    | ok name => exact paintObject_tandem hcd hco hforms h
  | shading =>
    dsimp only
    split
    · exact Agree.pure (.of_result rfl rfl h)
    · cases o.name 0 with
      | error fault => exact Agree.pure (.of_result rfl rfl h)
      | ok name => exact paintShading_tandem hcd hco h
  | image =>
    dsimp only
    split
    · exact Agree.pure (.of_result rfl rfl h)
    · cases hstream : o.operand 0 "image" Obj.stream? with
      | error fault => exact Agree.pure (.of_result rfl rfl h)
      | ok stream => exact paintInline_tandem hcd hco h (ho.stream hstream)

/-- **All operations on two machines in tandem** leave them in tandem, or stop both. -/
theorem performAll_tandem {ops : List Operation} (h : Tandem cmp s t)
    (hops : ∀ o ∈ ops, o.Plain) :
    Agree c.lib roots c.scopes d.scopes (Matched (Tandem cmp)) (s.performAll c ops)
      (t.performAll d ops) := by
  induction ops generalizing s t with
  | nil => exact Agree.pure (.ok h)
  | cons o rest ih =>
    obtain ⟨ho, hrest⟩ := List.forall_mem_cons.mp hops
    intro F G mem mem' hF hG hm hm'
    obtain ⟨hout, hm₁, hm₁'⟩ := perform_tandem hcd hco hforms h ho F G mem mem' hF hG hm hm'
    rw [performAll_cons, performAll_cons]
    rcases hs : s.perform c o mem with ⟨r, mem₁⟩
    rcases ht : t.perform d o mem' with ⟨r', mem₁'⟩
    rw [hs, ht] at hout
    rw [hs] at hm₁
    rw [ht] at hm₁'
    cases hout with
    | panic p => exact ⟨.panic p, hm₁, hm₁'⟩
    | @ok x y hout =>
      dsimp only
      unfold Outcome.Matched at hout
      generalize x.result = result at hout
      generalize y.result = result' at hout
      cases hout with
      | error e e' => exact ⟨.ok (.error e e'), hm₁, hm₁'⟩
      | ok h' => exact ih h' hrest F G _ _ hF hG hm₁ hm₁'

end Machine

end PdfScene
