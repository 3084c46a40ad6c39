import PdfScene.Proofs.Content.Step
import PdfScene.Proofs.Resource.Panics

/-!
# Where content panics

What carries out operations panics where the readers that it calls do, and where a colour is made in a
space of which components are missing. So the spaces that are in effect have to be known as well:
`Machine.Safe` says that those of the state, and of the states that have been saved, are safe. Every
operation keeps this (`Machine.perform_yields`), and with it content comes to an answer or to a panic
that its domain allows, whatever the forms that it uses contain (`Content.interpret_yields`).

The images that stand in the content of forms are the one thing that reading comes to which no
reference leads to: `Content.Domain` is closed under these as well.
-/

set_option autoImplicit false

namespace PdfScene

open Run

/-! ## Safe states -/

/-- The spaces in effect are safe. -/
structure GraphicsState.Safe (Q : Panic → Prop) (s : GraphicsState) : Prop where
  stroke : s.strokeSpace.Safe Q
  fill : s.fillSpace.Safe Q

namespace GraphicsState.Safe

variable {Q : Panic → Prop} {s s' : GraphicsState}

theorem congr (h : s.Safe Q) (hstroke : s'.strokeSpace = s.strokeSpace)
    (hfill : s'.fillSpace = s.fillSpace) : s'.Safe Q :=
  ⟨hstroke ▸ h.stroke, hfill ▸ h.fill⟩

theorem withStroke {space : ColorSpace} (h : s.Safe Q) (hspace : space.Safe Q) (paint : Paint) :
    (s.withStroke space paint).Safe Q := ⟨hspace, h.fill⟩

theorem withFill {space : ColorSpace} (h : s.Safe Q) (hspace : space.Safe Q) (paint : Paint) :
    (s.withFill space paint).Safe Q := ⟨h.stroke, hspace⟩

end GraphicsState.Safe

theorem ColorSpace.Device.safe {Q : Panic → Prop} {space : ColorSpace} (h : space.Device) :
    space.Safe Q := by
  left
  intro n alternate hpart
  cases h <;> cases hpart

/-- A setting leads from safe spaces to safe ones: those of devices are the only ones it brings in. -/
theorem Operation.setting_safe {Q : Panic → Prop} {o : Operation} {s s' : GraphicsState}
    (h : s.Safe Q) (hs : o.setting? s = some (.ok s')) : s'.Safe Q := by
  have hline : ∀ {f}, line s f = .ok s' → s'.Safe Q := by
    intro f hs
    unfold line at hs
    cases hl : f s.line <;> rw [hl] at hs <;> cases hs
    exact h.congr rfl rfl
  have htext : ∀ {f}, text s f = .ok s' → s'.Safe Q := by
    intro f hs
    unfold text at hs
    cases ht : f s.text <;> rw [ht] at hs <;> cases hs
    exact h.congr rfl rfl
  have hstroke : ∀ {space} (hd : ColorSpace.Device space),
      (do pure (s.withStroke space (← o.deviceColor hd)) : Except OperandFault _) = .ok s' →
      s'.Safe Q := by
    intro space hd hs
    cases hpaint : o.deviceColor hd <;> rw [hpaint] at hs <;> cases hs
    exact h.withStroke hd.safe _
  have hfill : ∀ {space} (hd : ColorSpace.Device space),
      (do pure (s.withFill space (← o.deviceColor hd)) : Except OperandFault _) = .ok s' →
      s'.Safe Q := by
    intro space hd hs
    cases hpaint : o.deviceColor hd <;> rw [hpaint] at hs <;> cases hs
    exact h.withFill hd.safe _
  obtain ⟨op, args⟩ := o
  cases op with
  | transform =>
    have hs := Option.some.inj hs
    cases ht : Operation.matrix ⟨.transform, args⟩ <;> rw [ht] at hs <;> cases hs
    exact h.congr rfl rfl
  | setStrokeGray | setStrokeRgb | setStrokeCmyk => exact hstroke _ (Option.some.inj hs)
  | setFillGray | setFillRgb | setFillCmyk => exact hfill _ (Option.some.inj hs)
  | setLineWidth | setLineCap | setLineJoin | setMiterLimit => exact hline (Option.some.inj hs)
  | setCharSpacing | setWordSpacing | setHorizontalScaling | setLeading | setRenderMode | setRise
  | moveText | moveTextSetLeading | setTextMatrix | nextLine => exact htext (Option.some.inj hs)
  | setIntent | setFlatness | glyphWidth | glyphWidthAndBox | markPoint | markPointProps
  | beginMarked | beginMarkedProps | endMarked | beginCompat | endCompat => cases hs; exact h
  | _ => cases hs

theorem Operation.dashes_safe {Q : Panic → Prop} (o : Operation) {s : GraphicsState}
    (h : s.Safe Q) : (o.dashes s).2.Safe Q := by
  unfold Operation.dashes
  cases o.operand 0 "dash array" Obj.numbers? with
  | error fault => exact h
  | ok dashes =>
    dsimp only
    cases o.num 1 <;> exact h.congr rfl rfl

/-- The spaces in effect are safe, and so are those that may come into effect again. -/
structure Machine.Safe (Q : Panic → Prop) (m : Machine) : Prop where
  state : m.state.Safe Q
  saved : ∀ s ∈ m.saved, s.Safe Q

/-- An operation leads on to a safe machine, if it leads on. -/
def Outcome.Safe (Q : Panic → Prop) (x : Outcome) : Prop := ∀ n, x.result = .ok n → n.Safe Q

namespace Machine.Safe

variable {Q : Panic → Prop} {m n : Machine}

theorem start {s : GraphicsState} (h : s.Safe Q) : (Machine.start s).Safe Q :=
  ⟨h, fun _ hs => absurd hs List.not_mem_nil⟩

/-- What leaves the states alone keeps a machine safe. -/
theorem congr (h : m.Safe Q) (hstate : n.state = m.state) (hsaved : n.saved = m.saved) : n.Safe Q :=
  ⟨hstate ▸ h.state, hsaved ▸ h.saved⟩

theorem withState {s : GraphicsState} (h : m.Safe Q) (hs : s.Safe Q) :
    Machine.Safe Q { m with state := s } := ⟨hs, h.saved⟩

theorem save (h : m.Safe Q) : m.save.Safe Q :=
  ⟨h.state, List.forall_mem_cons.mpr ⟨h.state, h.saved⟩⟩

theorem restore (h : m.Safe Q) : m.restore.Safe Q := by
  have hsaved := h.saved
  unfold Machine.restore
  cases hm : m.saved with
  | nil => exact h
  | cons s saved =>
    rw [hm] at hsaved
    exact ⟨hsaved s List.mem_cons_self, fun t ht => hsaved t (List.mem_cons_of_mem s ht)⟩

theorem endText (h : m.Safe Q) : m.endText.Safe Q := by
  unfold Machine.endText
  cases m.block with
  | none => exact h
  | some block => exact h.congr rfl rfl

theorem finishPath (h : m.Safe Q) : m.finishPath.Safe Q := by
  unfold Machine.finishPath Machine.applyClip
  cases m.pendingClip with
  | none => exact h.congr rfl rfl
  | some rule => exact ⟨h.state.congr rfl rfl, h.saved⟩

theorem endPath (h : m.Safe Q) (use : PathUse) : (m.endPath use).Safe Q :=
  endPath_of_finishPath (fun _ => finishPath ⟨h.state, h.saved⟩)
    fun _ => finishPath ⟨h.state, h.saved⟩

theorem paint (h : m.Safe Q) (mark : Mark) : (m.paint mark).Safe Q := ⟨h.state, h.saved⟩

theorem splice (h : m.Safe Q) (s : Scene) : (m.splice s).Safe Q := by
  unfold Machine.splice
  cases m.block <;> exact h.congr rfl rfl

theorem showText (h : m.Safe Q) (mode : Mode) (record : Bool) (bs : Bytes) :
    (m.showText mode record bs).Safe Q := by
  have hrecord : (m.recordText mode record bs).Safe Q := by
    unfold Machine.recordText
    cases mode with
    | text => exact h.congr rfl rfl
    | shapes => cases record <;> exact h.congr rfl rfl
  exact ⟨hrecord.state.congr rfl rfl, hrecord.saved⟩

theorem shown {o : Operation} {mode : Mode} {record : Bool} (h : m.Safe Q)
    (hn : o.shown mode record m = .ok n) : n.Safe Q := by
  rcases shown_rel (R := fun s t => s.Safe Q ∧ t.Safe Q)
    (fun _ _ _ h => ⟨⟨h.1.state.congr rfl rfl, h.1.saved⟩, ⟨h.2.state.congr rfl rfl, h.2.saved⟩⟩)
    (fun bs _ _ h => ⟨h.1.showText mode record bs, h.2.showText mode record bs⟩)
    o ⟨h, h⟩ with ⟨fault, hm, _⟩ | ⟨s', _, hm, _, h'⟩
  · cases hn.symm.trans hm
  · cases hn.symm.trans hm
    exact h'.1

theorem done (h : m.Safe Q) : (Outcome.done m).Safe Q := by
  rintro _ ⟨⟩
  exact h

theorem rejected (h : m.Safe Q) (fault : OperandFault) : (Outcome.rejected fault m).Safe Q := by
  rintro _ ⟨⟩
  exact h

end Machine.Safe

theorem Outcome.Safe.failed {Q : Panic → Prop} (e : Error) : (Outcome.failed e).Safe Q := by
  rintro _ ⟨⟩

theorem Operator.eq_inlineImage {op : Operator} (h : op.kind = .image) : op = .inlineImage := by
  cases op <;> first | rfl | cases h

/-! ## Contexts -/

/-- A domain that also has the images which stand in decoded content. -/
structure Content.Domain (lib : Library) (P : Obj → Prop) (D : Decoded → Prop) (Q : Panic → Prop) :
    Prop extends lib.Domain P D Q where
  inline : ∀ d : Decoded, D d → ∀ o ∈ Operation.readAll d.data, ∀ s,
    o.operand 0 "image" Obj.stream? = .ok s → P (InlineData.expand lib.order s).toObj

/-- A form of the domain that is used under scopes of the domain, in a safe state. -/
structure Form.Safe (P : Obj → Prop) (Q : Panic → Prop) (f : Form) : Prop extends f.Within P where
  outer : ∀ s ∈ f.outer, ∀ e ∈ s.dict, P e.2
  state : f.state.Safe Q

theorem Form.Safe.scopes {P : Obj → Prop} {Q : Panic → Prop} {f : Form} (h : f.Safe P Q) :
    ∀ s ∈ f.scopes, ∀ e ∈ s.dict, P e.2 := by
  intro s hs
  rcases List.mem_append.mp hs with hs | hs
  · exact h.resources s (Option.mem_toList.mp hs)
  · exact h.outer s hs

theorem Form.Safe.initialState {P : Obj → Prop} {Q : Panic → Prop} {f : Form} (h : f.Safe P Q) :
    f.initialState.Safe Q := by
  unfold Form.initialState
  cases f.bbox <;> exact h.state.congr rfl rfl

/-- The scopes of a context are of the domain, and forms that are yield what it allows. -/
structure Context.Safe (P : Obj → Prop) (D : Decoded → Prop) (Q : Panic → Prop) (c : Context) : Prop where
  scopes : ∀ s ∈ c.scopes, ∀ e ∈ s.dict, P e.2
  invoke : ∀ form : Form, form.Safe P Q → Yields D Q (fun _ => True) (c.invoke form)

section

variable {P : Obj → Prop} {D : Decoded → Prop} {Q : Panic → Prop}

/-! ## Setting the state -/

/-- A colour that a consistent space has is missing only where that is allowed. -/
theorem ColorSpace.Safe.orPanic_error {space : ColorSpace} {color : Option Color} {p : Panic}
    (hspace : space.Safe Q) (hcolor : space.Consistent → color.isSome)
    (hp : orPanic color = .error p) : Q p := by
  rcases hspace with hconsistent | hmissing
  · obtain ⟨a, ha⟩ := Option.isSome_iff_exists.mp (hcolor hconsistent)
    rw [ha] at hp
    cases hp
  · cases color <;> cases hp
    exact hmissing

namespace Context

variable {c : Context} (h : c.lib.Domain P D Q) (hc : c.Safe P D Q)

include h hc

theorem colorSpace?_yields (name : String) :
    Yields D Q (fun r => ∀ space, r = .ok space → space.Safe Q) (c.colorSpace? name) := by
  unfold colorSpace?
  cases hdevice : ColorSpace.ofDeviceName? name with
  | some space =>
    refine .pure ?_
    rintro _ ⟨⟩
    exact .of_deviceName hdevice
  | none =>
    refine (Scopes.find_yields fun s hs => h.scopeSpace name (hc.scopes s hs)).bind fun found hfound => ?_
    cases hor : found.or (ColorSpace.ofCalibratedName? name) with
    | none => exact .pure nofun
    | some space =>
      refine .pure ?_
      rintro _ ⟨⟩
      rcases Option.or_eq_some_iff.mp hor with hfound' | ⟨-, hcalibrated⟩
      · exact hfound space hfound'
      · exact .of_name (Option.or_eq_some_iff.mpr (.inr ⟨hdevice, hcalibrated⟩))

theorem pattern_yields (o : Operation) {color : List Float → Except Panic (Option Color)}
    (hcolor : ∀ xs, Yields D Q (fun _ => True) (Run.of (color xs))) :
    Yields D Q (fun _ => True) (c.pattern o color) := by
  unfold pattern
  cases o.args.getLast?.bind Obj.name? with
  | none => exact .pure trivial
  | some name =>
    have hfound : Yields D Q (fun _ => True) (c.scopes.pattern? c.lib name) :=
      h.compositional.find fun s hs => h.compositional.pattern? (hc.scopes s hs)
    refine hfound.bind fun found _ => ?_
    cases found with
    | none => exact .pure trivial
    | some pattern => exact (hcolor _).bind fun _ _ => .pure trivial

theorem paint_yields (o : Operation) {space : ColorSpace} (hspace : space.Safe Q) :
    Yields D Q (fun _ => True) (c.paint o space) := by
  unfold paint
  split
  · exact pattern_yields h hc o fun _ => .of (fun _ _ => trivial) nofun
  · rename_i underlying
    have hunderlying : underlying.Safe Q := hspace.imp ColorSpace.Consistent.stencil id
    refine pattern_yields h hc o fun xs => .of (fun _ _ => trivial) fun p hp => ?_
    cases hcolor : ColorSpace.orPanic (underlying.toColor? xs) <;> rw [hcolor] at hp <;> cases hp
    exact hunderlying.orPanic_error (ColorSpace.isSome_toColor? · xs) hcolor
  · have hcolor := fun p => hspace.orPanic_error (p := p)
      (ColorSpace.isSome_toColor? · (o.args.filterMap Obj.num?))
    exact (Yields.of (fun _ _ => trivial) hcolor).bind fun _ _ => .pure trivial

/-- **Setting the state yields a safe state**, if it yields one. -/
theorem style_yields (o : Operation) {s : GraphicsState} (hs : s.Safe Q) :
    Yields D Q (fun r => ∀ s', r = .ok s' → s'.Safe Q) (c.style o s) := by
  have hset : ∀ {s' : GraphicsState}, s'.Safe Q → Yields D Q (fun r => ∀ s', r = .ok s' → s'.Safe Q)
      (pure (.ok s' : Except OperandFault GraphicsState)) := by
    intro s' hs'
    refine .pure ?_
    rintro _ ⟨⟩
    exact hs'
  have hfault : ∀ {α : Type} {r : Except OperandFault α}
      {f : α → Run (Except OperandFault GraphicsState)},
      (∀ a, r = .ok a → Yields D Q (fun r => ∀ s', r = .ok s' → s'.Safe Q) (f a)) →
      Yields D Q (fun r => ∀ s', r = .ok s' → s'.Safe Q) (orFault r f) := by
    intro α r f hf
    cases r with
    | ok a => exact hf a rfl
    | error fault => exact .pure fun _ h => nomatch h
  have hspace : ∀ {set : GraphicsState → ColorSpace → Paint → GraphicsState} (name : String),
      (∀ space paint, space.Safe Q → (set s space paint).Safe Q) →
      Yields D Q (fun r => ∀ s', r = .ok s' → s'.Safe Q) (c.withSpace s set name) := by
    intro set name hset'
    refine (colorSpace?_yields h hc name).bind fun r hr => hfault fun space hspace => ?_
    have hcolor := fun p => (hr space hspace).orPanic_error (p := p)
      fun hconsistent => (ColorSpace.isSome_convert? hconsistent).2
    exact (Yields.of (fun _ _ => trivial) hcolor).bind fun _ _ => hset (hset' _ _ (hr space hspace))
  have hcolor : ∀ {set : GraphicsState → ColorSpace → Paint → GraphicsState} {space : ColorSpace},
      space.Safe Q → (∀ paint, (set s space paint).Safe Q) →
      Yields D Q (fun r => ∀ s', r = .ok s' → s'.Safe Q) (c.withColor o s space set) := by
    intro set space hspace hset'
    refine (paint_yields h hc o hspace).bind fun r _ => ?_
    cases r with
    | error fault => exact .pure fun _ h => nomatch h
    | ok paint => exact hset (hset' paint)
  unfold style
  split
  · refine hfault fun name _ => ?_
    have hfound : Yields D Q (fun _ => True) (c.scopes.parameters? c.lib name) :=
      h.compositional.find fun t ht => h.compositional.parameters? (hc.scopes t ht)
    refine hfound.bind fun p _ => hset ?_
    cases p <;> exact hs.congr rfl rfl
  · refine hfault fun (name, size) _ => ?_
    have hfound : Yields D Q (fun _ => True) (c.scopes.font? c.lib name) :=
      h.compositional.find fun t ht => h.scopeFont name (hc.scopes t ht)
    exact hfound.bind fun font _ => hset (hs.congr rfl rfl)
  · exact hfault fun name _ => hspace name fun _ _ hnew => hs.withStroke hnew _
  · exact hfault fun name _ => hspace name fun _ _ hnew => hs.withFill hnew _
  · exact hcolor hs.stroke fun _ => hs.withStroke hs.stroke _
  · exact hcolor hs.stroke fun _ => hs.withStroke hs.stroke _
  · exact hcolor hs.fill fun _ => hs.withFill hs.fill _
  · exact hcolor hs.fill fun _ => hs.withFill hs.fill _
  · refine .pure fun s' hs' => ?_
    cases hr : o.setting? s with
    | none => rw [hr] at hs'; cases hs'; exact hs
    | some r =>
      rw [hr] at hs'
      exact Operation.setting_safe hs (hr.trans (congrArg some hs'))

end Context

/-! ## Painting -/

namespace Machine

variable {c : Context} {m : Machine} (hm : m.Safe Q)
include hm

theorem orReject_yields {α : Type} {r : Except OperandFault α} {f : α → Run Outcome}
    (hf : ∀ a, r = .ok a → Yields D Q (Outcome.Safe Q) (f a)) :
    Yields D Q (Outcome.Safe Q) (m.orReject r f) := by
  cases r with
  | ok a => exact hf a rfl
  | error fault => exact .pure (hm.rejected fault)

variable (h : c.lib.Domain P D Q)
include h

theorem paintImage_yields {image : Image} (himage : image.Safe P Q) (inContent : Bool) :
    Yields D Q (Outcome.Safe Q) (m.paintImage c image inContent) := by
  refine (h.decode himage.stream).bind fun r _ => ?_
  cases r with
  | error e => exact .pure (.failed e)
  | ok data =>
    have hpixels : Yields D Q (fun _ => True)
        (Run.of (Panic.apart (image.pixels? data c.lib.jpeg))) := by
      refine .of (fun _ _ => trivial) fun p hp => ?_
      obtain ⟨rfl, space, hspace, hbroken⟩ :=
        Image.pixels?_panic himage.bits (Panic.apart_eq_error_iff.mp hp)
      exact (himage.space space hspace).resolve_left hbroken
    refine hpixels.bind fun r _ => ?_
    cases r with
    | error e => exact .pure (.failed e)
    | ok pixels => exact .pure (hm.paint _).done

variable (hc : c.Safe P D Q)
include hc

theorem paintInline_yields {s : StreamObj} (hs : P (InlineData.expand c.lib.order s).toObj) :
    Yields D Q (Outcome.Safe Q) (m.paintInline c s) := by
  have hnamed := fun name => Scopes.find_yields fun t ht => h.scopeSpace name (hc.scopes t ht)
  refine (h.readImage hs hnamed).bind fun r hr => ?_
  cases r with
  | error e => exact .pure (.failed e)
  | ok image => exact paintImage_yields hm h (hr image rfl) true

theorem paintShading_yields (name : String) :
    Yields D Q (Outcome.Safe Q) (m.paintShading c name) := by
  have hfound : Yields D Q (fun _ => True) (c.scopes.shading? c.lib name) :=
    h.compositional.find fun t ht => h.compositional.shading? (hc.scopes t ht)
  refine hfound.bind fun found _ => ?_
  cases found with
  | none => exact .pure hm.done
  | some shading => exact .pure (hm.paint _).done

theorem paintObject_yields (name : String) :
    Yields D Q (Outcome.Safe Q) (m.paintObject c name) := by
  refine (Scopes.find_yields fun t ht => h.scopeXObject name (hc.scopes t ht)).bind fun found hfound => ?_
  rcases found with _ | ⟨image⟩ | ⟨form⟩
  · exact .pure hm.done
  · dsimp only
    split
    · exact paintImage_yields hm h (hfound _ rfl) false
    · exact .pure hm.done
  · have hwithin : form.Within P := hfound _ rfl
    have hform : (form.usedIn c.scopes m.state).Safe P Q :=
      ⟨⟨hwithin.stream, hwithin.resources⟩, hc.scopes, hm.state⟩
    exact (hc.invoke _ hform).bind fun s _ => .pure (hm.splice s).done

/-! ## Operations -/

/-- **An operation yields a safe machine**, if it yields one. -/
theorem perform_yields {o : Operation}
    (ho : c.mode = .shapes → o.op = .inlineImage → ∀ s, o.operand 0 "image" Obj.stream? = .ok s →
      P (InlineData.expand c.lib.order s).toObj) :
    Yields D Q (Outcome.Safe Q) (m.perform c o) := by
  rw [perform_eq]
  cases hkind : o.op.kind with
  | save => exact .pure hm.save.done
  | restore => exact .pure hm.restore.done
  | beginText => exact .pure (.done ⟨hm.state.congr rfl rfl, hm.saved⟩)
  | endText => exact .pure hm.endText.done
  | dash =>
    have hdashes := o.dashes_safe hm.state
    dsimp only
    rcases hd : o.dashes m.state with ⟨_ | fault, state⟩ <;> rw [hd] at hdashes
    · exact .pure (hm.withState hdashes).done
    · exact .pure ((hm.withState hdashes).rejected fault)
  | style =>
    refine (Context.style_yields h hc o hm.state).bind fun r hr => ?_
    cases r with
    | error fault => exact .pure (hm.rejected fault)
    | ok state => exact .pure (hm.withState (hr state rfl)).done
  | segment =>
    dsimp only
    split
    · exact .pure hm.done
    · cases o.segment m.path with
      | error fault => exact .pure (hm.rejected fault)
      | ok path => exact .pure (.done ⟨hm.state, hm.saved⟩)
  | endPath use =>
    dsimp only
    split
    · exact .pure (.done ⟨hm.state, hm.saved⟩)
    · exact .pure (hm.endPath use).done
  | clip rule => exact .pure (.done ⟨hm.state, hm.saved⟩)
  | text => exact orReject_yields hm fun n hn => .pure (hm.shown hn).done
  | object => exact orReject_yields hm fun name _ => paintObject_yields hm h hc name
  | shading =>
    dsimp only
    split
    · exact .pure hm.done
    · exact orReject_yields hm fun name _ => paintShading_yields hm h hc name
  | image =>
    dsimp only
    split
    · exact .pure hm.done
    · rename_i hmode
      have hshapes : c.mode = .shapes := by cases hm : c.mode <;> simp_all
      exact orReject_yields hm fun s hs =>
        paintInline_yields hm h hc (ho hshapes (Operator.eq_inlineImage hkind) s hs)

/-- Operations yield a safe machine, if none of them fails. -/
theorem performAll_yields {ops : List Operation}
    (hops : c.mode = .shapes → ∀ o ∈ ops, o.op = .inlineImage → ∀ s,
      o.operand 0 "image" Obj.stream? = .ok s → P (InlineData.expand c.lib.order s).toObj) :
    Yields D Q (fun r => ∀ n, r = .ok n → n.Safe Q) (m.performAll c ops) := by
  induction ops generalizing m with
  | nil =>
    refine .pure ?_
    rintro _ ⟨⟩
    exact hm
  | cons o rest ih =>
    have hrest := fun hmode o' ho' => hops hmode o' (List.mem_cons_of_mem o ho')
    refine (perform_yields hm h hc fun hmode => hops hmode o List.mem_cons_self).bind fun x hx => ?_
    cases x with
    | done n => exact ih (hx n rfl) hrest
    | rejected fault n => exact ih (hx n rfl) hrest
    | failed e => exact .pure fun _ h => nomatch h

end Machine

/-! ## Content -/

namespace Content

theorem scene_yields {c : Context} {state : GraphicsState} {data : Bytes}
    (h : c.lib.Domain P D Q) (hc : c.Safe P D Q) (hstate : state.Safe Q)
    (hops : c.mode = .shapes → ∀ o ∈ Operation.readAll data, o.op = .inlineImage → ∀ s,
      o.operand 0 "image" Obj.stream? = .ok s → P (InlineData.expand c.lib.order s).toObj) :
    Yields D Q (fun _ => True) (scene c state data) := by
  refine (Machine.performAll_yields (.start hstate) h hc hops).bind fun r _ => ?_
  cases r <;> exact .pure trivial

variable {lib : Library} (h : Domain lib P D Q) (mode : Mode) (options : Options)
include h

/-- What comes of a form, if forms within it yield what is allowed. The images in its content are of
the domain, since the data of the form is. -/
theorem formScene_yields {invoke : List ObjRef → Form → Run Scene} {inProgress : List ObjRef}
    {form : Form}
    (hinvoke : ∀ refs (f : Form), f.Safe P Q → Yields D Q (fun _ => True) (invoke refs f))
    (hform : form.Safe P Q) :
    Yields D Q (fun _ => True) (formScene lib mode options invoke inProgress form) := by
  refine (h.decode hform.stream).bind fun r hr => ?_
  cases r with
  | error e => exact .pure trivial
  | ok data =>
    refine (scene_yields h.toDomain ⟨hform.scopes, hinvoke _⟩ hform.initialState ?_).bind fun r _ => ?_
    · exact fun _ o ho _ s hs => h.inline data (hr data rfl) o ho s hs
    · cases r <;> exact .pure trivial

/-- Forms yield what is allowed, by recursion on the room for forms within one another. -/
theorem invoke_yields (room : Nat) (inProgress : List ObjRef) {form : Form} (hform : form.Safe P Q) :
    Yields D Q (fun _ => True) (invoke lib mode options room inProgress form) := by
  induction room generalizing inProgress form with
  | zero => exact .pure trivial
  | succ room ih =>
    unfold invoke
    split
    · exact .pure trivial
    · exact formScene_yields h mode options (fun refs f hf => ih refs hf) hform

/-- **Content yields an answer, or a panic that is allowed**, whatever the forms contain that it
uses. -/
theorem interpret_yields {scopes : Scopes} {state : GraphicsState} {data : Bytes}
    (hscopes : ∀ s ∈ scopes, ∀ e ∈ s.dict, P e.2) (hstate : state.Safe Q)
    (hops : mode = .shapes → ∀ o ∈ Operation.readAll data, o.op = .inlineImage → ∀ s,
      o.operand 0 "image" Obj.stream? = .ok s → P (InlineData.expand lib.order s).toObj) :
    Yields D Q (fun _ => True) (interpret lib mode options scopes state data) :=
  scene_yields h.toDomain ⟨hscopes, fun _ => invoke_yields h mode options _ _⟩ hstate hops

end Content

end

end PdfScene
