import PdfScene.Content.Interpret
import PdfScene.Proofs.Resource.Remembering

/-!
# One step — what an operation can do to the machine

There are more than seventy operators and a dozen things that they do. `Operator.kind` sorts the
operators by what they act on, and `Machine.perform_eq` says once what an operation of each kind
does. Every statement about operations is proved from it, with one case for each kind and not one
for each operator: an operator that is added to a kind changes nothing here.

Most operators set part of the graphics state and do nothing else. They are the kind `style`, and
`Context.style` is the state that they lead to: it is given the state and not the machine, so what
it cannot see it cannot change.
-/

set_option autoImplicit false

namespace PdfScene

/-! ## Kinds of operators -/

/-- What an operator acts on. -/
inductive Operator.Kind where
  | save
  | restore
  | beginText
  | endText
  /-- The dashes of lines, which are set one operand after the other. -/
  | dash
  /-- The graphics state and nothing else. -/
  | style
  | segment
  | endPath (use : PathUse)
  | clip (rule : FillRule)
  | text
  | object
  | shading
  | image
  deriving DecidableEq

def Operator.kind (op : Operator) : Operator.Kind :=
  match op, op.pathUse?, op.clipRule? with
  | .save, _, _ => .save
  | .restore, _, _ => .restore
  | .beginText, _, _ => .beginText
  | .endText, _, _ => .endText
  | .setDash, _, _ => .dash
  | .moveTo, _, _ | .lineTo, _, _ | .curveTo, _, _ | .curveFromCurrent, _, _ | .curveToEnd, _, _
  | .closePath, _, _ | .rectangle, _, _ => .segment
  | .showText, _, _ | .showSpacedText, _, _ | .nextLineShow, _, _
  | .nextLineSpaceShow, _, _ => .text
  | .paintXObject, _, _ => .object
  | .shadingFill, _, _ => .shading
  | .inlineImage, _, _ => .image
  | _, some use, _ => .endPath use
  | _, none, some rule => .clip rule
  | _, none, none => .style

theorem Operator.eq_setDash {op : Operator} (h : op.kind = .dash) : op = .setDash := by
  cases op <;> first | rfl | cases h

theorem Operator.eq_paintXObject {op : Operator} (h : op.kind = .object) : op = .paintXObject := by
  cases op <;> first | rfl | cases h

namespace Operation

/-- The path after a segment. -/
def segment (o : Operation) (p : Path) : Except OperandFault Path := (o.segment? p).getD (.ok p)

/-- The machine after text has been shown. -/
def shown (o : Operation) (mode : Mode) (record : Bool) (m : Machine) :
    Except OperandFault Machine :=
  (o.shown? mode record m).getD (.ok m)

end Operation

namespace Context

variable (c : Context)

/-- Carries on with a result, unless there is a reason against it. -/
def orFault {α : Type} (r : Except OperandFault α)
    (f : α → Run (Except OperandFault GraphicsState)) : Run (Except OperandFault GraphicsState) :=
  match r with
  | .ok a => f a
  | .error fault => pure (.error fault)

def withParameters (s : GraphicsState) (name : String) :
    Run (Except OperandFault GraphicsState) := do
  pure (.ok ((← c.scopes.parameters? c.lib name).elim s (·.apply s)))

def withFont (s : GraphicsState) (name : String) (size : Float) :
    Run (Except OperandFault GraphicsState) := do
  let font ← c.scopes.font? c.lib name
  pure (.ok { s with text := { s.text with font, fontName := some name, size } })

def withSpace (s : GraphicsState) (set : GraphicsState → ColorSpace → Paint → GraphicsState)
    (name : String) : Run (Except OperandFault GraphicsState) := do
  orFault (← c.colorSpace? name) fun space => do
    let color ← Run.of (ColorSpace.orPanic space.initialColor?)
    pure (.ok (set s space (.solid color)))

/-- The state with a colour of the colour space in effect. -/
def withColor (o : Operation) (s : GraphicsState) (space : ColorSpace)
    (set : GraphicsState → ColorSpace → Paint → GraphicsState) :
    Run (Except OperandFault GraphicsState) := do
  pure ((← c.paint o space).map (set s space))

/-- The state after an operation that sets part of it, or the reason why there is none. -/
def style (o : Operation) (s : GraphicsState) : Run (Except OperandFault GraphicsState) :=
  match o.op with
  | .setState => orFault (o.name 0) (c.withParameters s)
  | .setFont => orFault (do pure (← o.name 0, ← o.num 1)) fun (name, size) => c.withFont s name size
  | .setStrokeSpace => orFault (o.name 0) (c.withSpace s .withStroke)
  | .setFillSpace => orFault (o.name 0) (c.withSpace s .withFill)
  | .setStrokeColor | .setStrokeColorN => c.withColor o s s.strokeSpace .withStroke
  | .setFillColor | .setFillColorN => c.withColor o s s.fillSpace .withFill
  | _ => pure ((o.setting? s).getD (.ok s))

end Context

/-! ## One equation for all operations -/

namespace Machine

variable {c : Context} {m : Machine} {o : Operation}

theorem orReject_eq {α : Type} {r : Except OperandFault α} {g : α → Run Outcome}
    {f : α → Run (Except OperandFault GraphicsState)}
    (h : ∀ a, g a = (do pure (m.withState (← f a)))) :
    m.orReject r g = (do pure (m.withState (← Context.orFault r f))) := by
  cases r with
  | ok a => exact h a
  | error fault => rfl

theorem setParameters_eq (name : String) :
    m.setParameters c name = (do pure (m.withState (← c.withParameters m.state name))) := by
  unfold setParameters Context.withParameters
  rw [bind_assoc]
  exact bind_congr fun p => by cases p <;> rfl

theorem setFont_eq (name : String) (size : Float) :
    m.setFont c name size = (do pure (m.withState (← c.withFont m.state name size))) := by
  unfold setFont Context.withFont
  rw [bind_assoc]
  rfl

theorem setSpace_eq (set : GraphicsState → ColorSpace → Paint → GraphicsState) (name : String) :
    m.setSpace c name set = (do pure (m.withState (← c.withSpace m.state set name))) := by
  unfold setSpace Context.withSpace
  rw [bind_assoc]
  refine bind_congr fun r => orReject_eq fun space => ?_
  rw [bind_assoc]
  rfl

theorem setColor_eq (space : ColorSpace)
    (set : GraphicsState → ColorSpace → Paint → GraphicsState) :
    m.setColor c o space set = (do pure (m.withState (← c.withColor o m.state space set))) := by
  unfold setColor Context.withColor
  rw [bind_assoc]
  exact bind_congr fun r => by cases r <;> rfl

theorem perform_style (h : o.op.kind = .style) :
    m.perform c o = (do pure (m.withState (← c.style o m.state))) := by
  obtain ⟨op, args⟩ := o
  cases op with
  -- these look something up or depend on it; for all others the two sides compute alike
  | setState => exact orReject_eq setParameters_eq
  | setFont => exact orReject_eq fun (name, size) => setFont_eq name size
  | setStrokeSpace => exact orReject_eq (setSpace_eq .withStroke)
  | setFillSpace => exact orReject_eq (setSpace_eq .withFill)
  | setStrokeColor => exact setColor_eq m.state.strokeSpace .withStroke
  | setStrokeColorN => exact setColor_eq m.state.strokeSpace .withStroke
  | setFillColor => exact setColor_eq m.state.fillSpace .withFill
  | setFillColorN => exact setColor_eq m.state.fillSpace .withFill
  | _ => first | rfl | cases h

/-- **What an operation does**, by the kind of its operator. -/
theorem perform_eq (c : Context) (m : Machine) (o : Operation) :
    m.perform c o =
      match o.op.kind with
      | .save => pure (.done m.save)
      | .restore => pure (.done m.restore)
      | .beginText => pure (.done (m.beginText c.mode))
      | .endText => pure (.done m.endText)
      | .dash =>
        match o.dashes m.state with
        | (none, state) => pure (.done { m with state })
        | (some fault, state) => pure (.rejected fault { m with state })
      | .style => do pure (m.withState (← c.style o m.state))
      | .segment => pure (if c.mode = .text then .done m else m.withPath (o.segment m.path))
      | .endPath use => pure (.done (if c.mode = .text then m.forgetClip else m.endPath use))
      | .clip rule => pure (.done { m with pendingClip := some rule })
      | .text => m.orReject (o.shown c.mode c.recordText m) fun m => pure (.done m)
      | .object => m.orReject (o.name 0) (m.paintObject c)
      | .shading =>
        if c.mode = .text then pure (.done m) else m.orReject (o.name 0) (m.paintShading c)
      | .image =>
        if c.mode = .text then pure (.done m)
        else m.orReject (o.operand 0 "image" Obj.stream?) (m.paintInline c) := by
  cases h : o.op.kind with
  | style => exact perform_style h
  -- few operators are of any other kind, and each of them computes
  | _ =>
    obtain ⟨op, args⟩ := o
    cases op <;> cases h <;> rfl

end Machine

/-! ## Showing text

All that showing text does to a machine is to set how text is shown and to show one string after the
other. What these two keep, between two machines, the four operators keep.
-/

namespace Machine

/-- The machine with another way to show text. -/
def withText (m : Machine) (f : TextState → TextState) : Machine :=
  { m with state := { m.state with text := f m.state.text } }

variable {R : Machine → Machine → Prop} {mode mode' : Mode} {record record' : Bool} {s t : Machine}
  (htext : ∀ f s t, R s t → R (s.withText f) (t.withText f))
  (hshow : ∀ bs s t, R s t → R (s.showText mode record bs) (t.showText mode' record' bs))
include htext hshow

theorem showSpaced_rel (items : List Obj) (h : R s t) :
    R (s.showSpaced mode record items) (t.showSpaced mode' record' items) := by
  induction items generalizing s t with
  | nil => exact h
  | cons item items ih =>
    cases item with
    -- an adjustment is measured in the way to show text that it changes
    | num x => exact ih (htext (fun text => text.advance (text.adjustment x)) s t h)
    | str bs => exact ih (hshow bs s t h)
    | hexStr bs => exact ih (hshow bs s t h)
    | _ => exact ih h

/-- Two machines show the text of an operation alike, or both reject it. -/
theorem shown_rel (o : Operation) (h : R s t) :
    (∃ fault, o.shown mode record s = .error fault ∧ o.shown mode' record' t = .error fault) ∨
      ∃ s' t', o.shown mode record s = .ok s' ∧ o.shown mode' record' t = .ok t' ∧ R s' t' := by
  unfold Operation.shown Operation.shown?
  dsimp only
  split <;> simp only [Option.getD_some, Option.getD_none]
  · cases o.bytes 0 with
    | error fault => exact .inl ⟨fault, rfl, rfl⟩
    | ok bs => exact .inr ⟨_, _, rfl, rfl, hshow bs s t h⟩
  · cases o.array 0 with
    | error fault => exact .inl ⟨fault, rfl, rfl⟩
    | ok items => exact .inr ⟨_, _, rfl, rfl, showSpaced_rel htext hshow items h⟩
  · cases o.bytes 0 with
    | error fault => exact .inl ⟨fault, rfl, rfl⟩
    | ok bs => exact .inr ⟨_, _, rfl, rfl, hshow bs _ _ (htext TextState.nextLine s t h)⟩
  · cases o.point 0 with
    | error fault => exact .inl ⟨fault, rfl, rfl⟩
    | ok spacing =>
      cases o.bytes 2 with
      | error fault => exact .inl ⟨fault, rfl, rfl⟩
      | ok bs =>
        have hspaced := htext (fun text =>
          { text with wordSpacing := spacing.1, charSpacing := spacing.2 }.nextLine) s t h
        exact .inr ⟨_, _, rfl, rfl, hshow bs _ _ hspaced⟩
  · exact .inr ⟨s, t, rfl, rfl, h⟩

end Machine

/-! ## The end of a path -/

namespace Machine

/-- What is left to do once a path has been painted: it confines what follows, and is gone. -/
def finishPath (m : Machine) : Machine := { m.applyClip with path := .empty }

theorem endPath_eq (m : Machine) (use : PathUse) :
    m.endPath use =
      let path := if use.close then m.path.close else m.path
      if path.isEmpty || (use.fill.isNone && !use.stroke) then { m with path }.finishPath
      else ({ m with path }.paint (.path path use.fill use.stroke)).finishPath := by
  unfold endPath
  dsimp only
  generalize (if use.close = true then m.path.close else m.path) = path
  split <;> rfl

/-- What holds of a machine with any path, painted or not, once it is finished, holds at the end. -/
theorem endPath_of_finishPath {P : Machine → Prop} {m : Machine} {use : PathUse}
    (hunpainted : ∀ path, P { m with path }.finishPath)
    (hpainted : ∀ path, P ({ m with path }.paint (.path path use.fill use.stroke)).finishPath) :
    P (m.endPath use) := by
  rw [endPath_eq]
  dsimp only
  generalize (if use.close = true then m.path.close else m.path) = path
  split
  · exact hunpainted path
  · exact hpainted path

end Machine

/-! ## From one operation to all -/

/-- The machine to go on with, or the reason to stop: a rejected operation stops nothing. -/
def Outcome.result : Outcome → Except Error Machine
  | .done m => .ok m
  | .rejected _ m => .ok m
  | .failed e => .error e

/-- If the one operation leads on, so does the other, to a machine in some relation. -/
def Outcome.Follows (R : Machine → Machine → Prop) (x y : Outcome) : Prop :=
  ∀ s, x.result = .ok s → ∃ t, y.result = .ok t ∧ R s t

theorem Outcome.Follows.of_result {R : Machine → Machine → Prop} {x y : Outcome} {s t : Machine}
    (hx : x.result = .ok s) (hy : y.result = .ok t) (h : R s t) : x.Follows R y := by
  intro s' hs'
  obtain rfl : s = s' := Except.ok.inj (hx.symm.trans hs')
  exact ⟨t, hy, h⟩

theorem Outcome.Follows.of_failed {R : Machine → Machine → Prop} {e : Error} {y : Outcome} :
    (failed e).Follows R y := fun _ h => by cases h

/-- The machine to go on with after an operation. There is none behind a panic. -/
def Run.next? (x : Run Outcome) (mem : Memory) : Option Machine :=
  match (x mem).1 with
  | .ok outcome => outcome.result.toOption
  | .error _ => none

namespace Run

variable {x : Run Outcome} {mem : Memory} {n : Machine}

theorem next?_eq_some_iff :
    x.next? mem = some n ↔ ∃ outcome, (x mem).1 = .ok outcome ∧ outcome.result = .ok n := by
  unfold next?
  rcases (x mem).1 with p | outcome
  · simp
  · cases houtcome : outcome.result <;> simp [houtcome, Except.toOption]

theorem next?_of_result {outcome : Outcome} (hx : (x mem).1 = .ok outcome)
    (h : outcome.result = .ok n) : x.next? mem = some n :=
  next?_eq_some_iff.mpr ⟨outcome, hx, h⟩

/-- What follows leads on where the other does. -/
theorem next?_of_rel {R : Machine → Machine → Prop} {y : Run Outcome} {mem' : Memory}
    (h : Panic.Rel (Outcome.Follows R) (x mem).1 (y mem').1) (hn : x.next? mem = some n) :
    ∃ n', y.next? mem' = some n' ∧ R n n' := by
  obtain ⟨outcome, hx, hresult⟩ := next?_eq_some_iff.mp hn
  generalize (x mem).1 = a at h hx
  generalize hy : (y mem').1 = b at h
  cases h with
  | ok h =>
    cases hx
    obtain ⟨n', hresult', hr⟩ := h n hresult
    exact ⟨n', next?_of_result hy hresult', hr⟩
  | panic p => cases hx

/-- What leads on has come to an answer first, and goes on with it. -/
theorem next?_bind {α : Type} {x : Run α} {f : α → Run Outcome}
    (h : (x >>= f).next? mem = some n) :
    ∃ a, (x mem).1 = .ok a ∧ (f a).next? (x mem).2 = some n := by
  obtain ⟨outcome, hrun, hresult⟩ := next?_eq_some_iff.mp h
  obtain ⟨a, ha, hf⟩ := bind_eq_ok_iff.mp hrun
  exact ⟨a, ha, next?_of_result hf hresult⟩

end Run

namespace Machine

variable {c : Context} {m n : Machine} {o : Operation} {rest : List Operation} {mem : Memory}

/-- What an operation that paints what is not a path can lead on to: the machine as it is, with one more
mark, or with what comes of a form. -/
inductive Painted (c : Context) (m : Machine) : Machine → Prop where
  | nothing : Painted c m m
  | mark (mark : Mark) : Painted c m (m.paint mark)
  | form {form : Form} {mem : Memory} {scene : Scene} :
      (c.invoke (form.usedIn c.scopes m.state) mem).1 = .ok scene → Painted c m (m.splice scene)

theorem painted_orReject {α : Type} {r : Except OperandFault α} {f : α → Run Outcome}
    (hf : ∀ a n, (f a).next? mem = some n → Painted c m n)
    (hn : (m.orReject r f).next? mem = some n) : Painted c m n := by
  cases r with
  | ok a => exact hf a n hn
  | error fault => cases hn; exact .nothing

theorem painted_paintImage {image : Image} {inContent : Bool}
    (hn : (m.paintImage c image inContent).next? mem = some n) : Painted c m n := by
  obtain ⟨e | data, -, hn⟩ := Run.next?_bind hn
  · cases hn
  · obtain ⟨e | pixels, -, hn⟩ := Run.next?_bind hn
    · cases hn
    · cases hn
      exact .mark _

theorem painted_paintInline {s : StreamObj} (hn : (m.paintInline c s).next? mem = some n) :
    Painted c m n := by
  obtain ⟨e | image, -, hn⟩ := Run.next?_bind hn
  · cases hn
  · exact painted_paintImage hn

theorem painted_paintShading {name : String} (hn : (m.paintShading c name).next? mem = some n) :
    Painted c m n := by
  obtain ⟨_ | shading, -, hn⟩ := Run.next?_bind hn
  · cases hn
    exact .nothing
  · cases hn
    exact .mark _

theorem painted_paintObject {name : String} (hn : (m.paintObject c name).next? mem = some n) :
    Painted c m n := by
  obtain ⟨_ | ⟨image⟩ | ⟨form⟩, -, hn⟩ := Run.next?_bind hn
  · cases hn
    exact .nothing
  · dsimp only at hn
    split at hn
    · exact painted_paintImage hn
    · cases hn
      exact .nothing
  · obtain ⟨scene, hscene, hn⟩ := Run.next?_bind hn
    cases hn
    exact .form hscene

theorem performAll_cons :
    m.performAll c (o :: rest) mem =
      match m.perform c o mem with
      | (.ok outcome, mem') =>
        match outcome.result with
        | .ok n => n.performAll c rest mem'
        | .error e => (.ok (.error e), mem')
      | (.error p, mem') => (.error p, mem') := by
  rw [performAll]
  rcases h : m.perform c o mem with ⟨p | outcome, mem'⟩
  · rw [Run.bind_of_error (congrArg Prod.fst h), h]
  · rw [Run.bind_of_eq h]
    cases outcome <;> rfl

theorem performAll_of_done {mem' : Memory} (h : m.perform c o mem = (.ok (.done n), mem')) :
    m.performAll c (o :: rest) mem = n.performAll c rest mem' := by
  rw [performAll_cons, h]
  rfl

theorem performAll_of_next? (h : (m.perform c o).next? mem = some n) :
    m.performAll c (o :: rest) mem = n.performAll c rest (m.perform c o mem).2 := by
  obtain ⟨outcome, hrun, hresult⟩ := Run.next?_eq_some_iff.mp h
  rw [performAll, Run.bind_of_ok hrun]
  cases outcome <;> cases hresult <;> rfl

/-- Operations that are carried out to the end begin with one that leads on. -/
theorem next?_of_performAll {final : Machine}
    (h : (m.performAll c (o :: rest) mem).1 = .ok (.ok final)) :
    ∃ n, (m.perform c o).next? mem = some n ∧
      (n.performAll c rest (m.perform c o mem).2).1 = .ok (.ok final) := by
  rw [performAll_cons] at h
  rcases hrun : m.perform c o mem with ⟨p | outcome, mem'⟩
  · rw [hrun] at h
    cases h
  · rw [hrun] at h
    dsimp only at h
    cases hresult : outcome.result with
    | ok n =>
      rw [hresult] at h
      exact ⟨n, Run.next?_of_result (congrArg Prod.fst hrun) hresult, h⟩
    | error e =>
      rw [hresult] at h
      cases h

theorem performAll_append (before : List Operation) :
    m.performAll c (before ++ rest) mem =
      match m.performAll c before mem with
      | (.ok (.ok n), mem') => n.performAll c rest mem'
      | stopped => stopped := by
  induction before generalizing m mem with
  | nil => rfl
  | cons o before ih =>
    rw [List.cons_append, performAll_cons, performAll_cons]
    rcases m.perform c o mem with ⟨p | outcome, mem'⟩
    · rfl
    · dsimp only
      cases outcome.result with
      | ok n => exact ih
      | error e => rfl

end Machine

end PdfScene
