import Mathlib
import PdfScene.Proofs.Content.Panics

/-!
# What stops content

Problems of an operation are its own, with one exception: an image that cannot be painted stops the
content that paints it. `Operation.PaintsImage` are the operations that paint an image, and
`Machine.perform_failed` says that no others stop anything. Forms are no exception to the rule, since
what stops the content of a form is lost where the form is painted. So content without images of its
own is not stopped by an error whatever is wrong with it, and nor is content that is read for its text.

What is left are panics, which nothing contains. `Content.Met` are the objects that content may come
to, and `Content.Source` says which of them a panic comes from: a stream that cannot be decoded without
one, or a space with a profile that a space of another number of components stands in for. Content
that meets neither comes to a scene (`Content.interpret_contained`).
-/

set_option autoImplicit false

namespace PdfScene

/-! ## Which names are those of images -/

def XObject.isImage : XObject → Bool
  | .image _ => true
  | .form _ => false

/-- Only its size decides whether an image can be read, if nothing panics. -/
theorem Image.toBool_of_read {lib : Library} {s : StreamObj}
    {named : String → Run (Option ColorSpace)} {m : Memory} {r : Except Error Image}
    (h : (read lib s named m).1 = .ok r) :
    r.toBool =
      (checkSize ((lib.int? s.dict "Width").getD 0) ((lib.int? s.dict "Height").getD 0)).toBool := by
  unfold read at h
  dsimp only at h
  cases hsize : checkSize ((lib.int? s.dict "Width").getD 0) ((lib.int? s.dict "Height").getD 0) with
  | error e =>
    rw [hsize] at h
    cases h
    rfl
  | ok _ =>
    rw [hsize] at h
    cases hstencil : (lib.bool? s.dict "ImageMask").getD false with
    | true => cases href : s.ref <;> rw [hstencil, href] at h <;> cases h <;> rfl
    | false =>
      rw [hstencil] at h
      obtain ⟨space, -, h⟩ := Run.bind_eq_ok_iff.mp h
      cases href : s.ref <;> rw [href] at h <;> cases h <;> rfl

/-- Whether a name is that of an image, if it is that of anything that can be painted. What is
remembered makes no difference to it. -/
def Scope.isImage? (lib : Library) (name : String) (s : Scope) : Option Bool :=
  match (s.entry? lib "XObject" name).bind fun o => (lib.resolve o).stream? with
  | none => none
  | some stream =>
    match lib.name? stream.dict "Subtype" with
    | some "Image" =>
      if (Image.checkSize ((lib.int? stream.dict "Width").getD 0)
        ((lib.int? stream.dict "Height").getD 0)).toBool then some true else none
    | some "Form" => some false
    | _ => none

theorem Scope.isImage?_eq {lib : Library} {name : String} {s : Scope} {m : Memory}
    {x : Option XObject} (h : (s.xobject? lib name m).1 = .ok x) :
    x.map XObject.isImage = s.isImage? lib name := by
  -- the look-up is taken apart before it is run: a match that is applied does not split
  obtain ⟨look, hlook⟩ : ∃ look, look = s.xobject? lib name := ⟨_, rfl⟩
  rw [← hlook] at h
  unfold xobject? at hlook
  cases hstream : (s.entry? lib "XObject" name).bind fun o => (lib.resolve o).stream? with
  | none =>
    rw [hstream] at hlook
    subst hlook
    cases h
    simp only [isImage?, hstream, Option.map_none]
  | some stream =>
    rw [hstream] at hlook
    dsimp only at hlook
    split at hlook
    · rename_i hsubtype
      subst hlook
      obtain ⟨r, hread, h⟩ := Run.bind_eq_ok_iff.mp h
      simp only [isImage?, hstream, hsubtype, ← Image.toBool_of_read hread]
      cases r <;> cases h <;> rfl
    · rename_i hsubtype
      subst hlook
      obtain ⟨form, -, h⟩ := Run.bind_eq_ok_iff.mp h
      cases h
      simp only [isImage?, hstream, hsubtype, Option.map_some, XObject.isImage]
    · subst hlook
      cases h
      simp [isImage?, hstream]

/-- Whether the first thing of a name that can be painted is an image. -/
def Scopes.isImage? (lib : Library) (name : String) (S : Scopes) : Option Bool :=
  S.findSome? (Scope.isImage? lib name)

theorem Scopes.isImage?_eq {lib : Library} {name : String} {S : Scopes} {m : Memory}
    {x : Option XObject} (h : (S.xobject? lib name m).1 = .ok x) :
    x.map XObject.isImage = S.isImage? lib name := by
  induction S generalizing m with
  | nil => cases h; rfl
  | cons s outer ih =>
    obtain ⟨found, hfound, h⟩ := Run.bind_eq_ok_iff.mp h
    have hs := Scope.isImage?_eq hfound
    unfold isImage? at ih ⊢
    rw [List.findSome?_cons, ← hs]
    cases found with
    | none => exact ih h
    | some found => cases h; rfl

/-! ## Operations that paint images -/

/-- An operation that holds an image, or names an external object that is one. -/
def Operation.PaintsImage (lib : Library) (scopes : Scopes) (o : Operation) : Prop :=
  o.op = .inlineImage ∨ o.op = .paintXObject ∧ ∃ name, o.name 0 = .ok name ∧
    scopes.isImage? lib name = some true

/-! ## Only images stop content -/

namespace Machine

variable {c : Context} {m : Machine} {o : Operation} {mem : Memory} {e : Error}

theorem orReject_failed {α : Type} {r : Except OperandFault α} {f : α → Run Outcome}
    (h : (m.orReject r f mem).1 = .ok (.failed e)) :
    ∃ a, r = .ok a ∧ (f a mem).1 = .ok (.failed e) := by
  cases r with
  | ok a => exact ⟨a, rfl, h⟩
  | error fault => cases h

theorem paintShading_not_failed {name : String} :
    (m.paintShading c name mem).1 ≠ .ok (.failed e) := by
  intro h
  obtain ⟨_ | shading, -, h⟩ := Run.bind_eq_ok_iff.mp h <;> cases h

theorem paintObject_failed {name : String} (h : (m.paintObject c name mem).1 = .ok (.failed e)) :
    c.mode = .shapes ∧ ∃ image mem', (c.scopes.xobject? c.lib name mem).1 = .ok (some (.image image)) ∧
      (m.paintImage c image false mem').1 = .ok (.failed e) := by
  obtain ⟨_ | ⟨image⟩ | ⟨form⟩, hfound, h⟩ := Run.bind_eq_ok_iff.mp h
  · cases h
  · dsimp only at h
    split at h
    · exact ⟨‹_›, image, _, hfound, h⟩
    · cases h
  · obtain ⟨scene, -, h⟩ := Run.bind_eq_ok_iff.mp h
    cases h

/-- **An operation that stops content paints an image**, and the content is read for its shapes. -/
theorem perform_failed (h : (m.perform c o mem).1 = .ok (.failed e)) :
    c.mode = .shapes ∧ o.PaintsImage c.lib c.scopes := by
  rw [perform_eq] at h
  cases hk : o.op.kind with
  | object =>
    rw [hk] at h
    obtain ⟨name, hname, h⟩ := orReject_failed h
    obtain ⟨hmode, image, -, himage, -⟩ := paintObject_failed h
    exact ⟨hmode, .inr ⟨Operator.eq_paintXObject hk, name, hname, (Scopes.isImage?_eq himage).symm⟩⟩
  | image =>
    rw [hk] at h
    dsimp only at h
    split at h
    · cases h
    · have hmode : c.mode = .shapes := by cases hm : c.mode <;> simp_all
      exact ⟨hmode, .inl (Operator.eq_inlineImage hk)⟩
  | shading =>
    rw [hk] at h
    dsimp only at h
    split at h
    · cases h
    · obtain ⟨name, -, h⟩ := orReject_failed h
      exact absurd h paintShading_not_failed
  | text =>
    rw [hk] at h
    obtain ⟨n, -, h⟩ := orReject_failed h
    cases h
  | dash =>
    rw [hk] at h
    dsimp only at h
    rcases hd : o.dashes m.state with ⟨_ | fault, state⟩ <;> rw [hd] at h <;> cases h
  | style =>
    rw [hk] at h
    obtain ⟨fault | state, -, h⟩ := Run.bind_eq_ok_iff.mp h <;> cases h
  | segment =>
    rw [hk] at h
    dsimp only at h
    split at h
    · cases h
    · cases hp : o.segment m.path <;> rw [hp] at h <;> cases h
  | _ => rw [hk] at h; cases h

/-- **Operations that paint no image are not stopped by an error.** -/
theorem performAll_not_error {ops : List Operation}
    (h : c.mode = .shapes → ∀ o ∈ ops, ¬ o.PaintsImage c.lib c.scopes) :
    (m.performAll c ops mem).1 ≠ .ok (.error e) := by
  induction ops generalizing m mem with
  | nil => nofun
  | cons o rest ih =>
    have hrest := fun hmode o' ho' => h hmode o' (List.mem_cons_of_mem o ho')
    rw [performAll_cons]
    rcases hrun : m.perform c o mem with ⟨p | n | ⟨fault, n⟩ | e', mem'⟩
    · nofun
    · exact ih hrest
    · exact ih hrest
    · obtain ⟨hmode, himage⟩ := perform_failed (congrArg Prod.fst hrun)
      exact absurd himage (h hmode o List.mem_cons_self)

end Machine

/-! ## What content comes to -/

namespace Content

/-- An object that content may come to: in the dictionaries it starts from, by a reference from one
that it has come to, within one, or as an image that stands in data which it decodes or which has been
decoded before. -/
inductive Met (lib : Library) (roots : List Dict) (decoded : List Decoded) : Obj → Prop where
  | null : Met lib roots decoded .null
  | root {d : Dict} {e : String × Obj} : d ∈ roots → e ∈ d → Met lib roots decoded e.2
  | object {r : ObjRef} {o : Obj} :
      Met lib roots decoded (.ref r) → lib.find? r = some o → Met lib roots decoded o
  | item {items : List Obj} {o : Obj} :
      Met lib roots decoded (.array items) → o ∈ items → Met lib roots decoded o
  | entry {o : Obj} {d : Dict} {e : String × Obj} :
      Met lib roots decoded o → o.dict? = some d → e ∈ d → Met lib roots decoded e.2
  | inline {t : StreamObj} {d : Decoded} {o : Operation} {s : StreamObj} :
      Met lib roots decoded t.toObj → t.decode lib.inflate = .ok d → o ∈ Operation.readAll d.data →
      o.operand 0 "image" Obj.stream? = .ok s →
      Met lib roots decoded (InlineData.expand lib.order s).toObj
  | inlineBefore {d : Decoded} {o : Operation} {s : StreamObj} :
      d ∈ decoded → o ∈ Operation.readAll d.data → o.operand 0 "image" Obj.stream? = .ok s →
      Met lib roots decoded (InlineData.expand lib.order s).toObj

/-- What a panic comes from where content is read that starts from some scopes in a state and a
memory. -/
inductive Source (lib : Library) (scopes : Scopes) (state : GraphicsState) (mem : Memory) :
    Panic → Prop where
  /-- A stream that decoding panics at. -/
  | stream {s : StreamObj} {p : Panic} :
      Met lib (scopes.map Scope.dict) (mem.cache.entries.map Prod.snd) s.toObj →
      s.decode lib.inflate = .error (.panic p) → Source lib scopes state mem p
  /-- A space that asks for components which its colours do not have. -/
  | space {o : Obj} {m : Memory} {space : ColorSpace} :
      Met lib (scopes.map Scope.dict) (mem.cache.entries.map Prod.snd) o →
      (ColorSpace.read lib o m).1 = .ok (some space) → ¬ space.Consistent →
      Source lib scopes state mem .missingComponent
  /-- Such a space that the content starts in. -/
  | state : ¬ (state.strokeSpace.Consistent ∧ state.fillSpace.Consistent) →
      Source lib scopes state mem .missingComponent

/-- What content may come to is a domain, with these panics. -/
theorem domain_met (lib : Library) (scopes : Scopes) (state : GraphicsState) (mem : Memory) :
    Domain lib (Met lib (scopes.map Scope.dict) (mem.cache.entries.map Prod.snd))
      (fun d => d ∈ mem.cache.entries.map Prod.snd ∨ ∃ t,
        Met lib (scopes.map Scope.dict) (mem.cache.entries.map Prod.snd) (StreamObj.toObj t) ∧
          t.decode lib.inflate = .ok d)
      (Source lib scopes state mem) where
  null := .null
  object := .object
  item := .item
  entry := .entry
  decoded t _ ht hd := .inr ⟨t, ht, hd⟩
  panic _ _ := .stream
  space o m space ho hread := by
    by_cases hconsistent : space.Consistent
    · exact .inl hconsistent
    · exact .inr (.space ho hread hconsistent)
  inline _ hd _ ho _ hs := by
    rcases hd with hd | ⟨t, ht, hd⟩
    · exact .inlineBefore hd ho hs
    · exact .inline ht hd ho hs

/-- A state is safe with the panics that have a source: it is a source itself if it is not safe
without. -/
theorem safe_source (lib : Library) (scopes : Scopes) (state : GraphicsState) (mem : Memory) :
    state.Safe (Source lib scopes state mem) := by
  by_cases hconsistent : state.strokeSpace.Consistent ∧ state.fillSpace.Consistent
  · exact ⟨.inl hconsistent.1, .inl hconsistent.2⟩
  · exact ⟨.inr (.state hconsistent), .inr (.state hconsistent)⟩

/-- **Problems of content are contained, but for panics.** Content that is read for its text comes to
a scene, and so does content that is read for its shapes if none of its own operations paints an image,
whatever the forms that it uses paint; or else there is a panic, and something that the content may
come to is the source of it. -/
theorem interpret_contained (lib : Library) (mode : Mode) (options : Options) (scopes : Scopes)
    (state : GraphicsState) (data : Bytes) (mem : Memory)
    (h : mode = .shapes → ∀ o ∈ Operation.readAll data, ¬ o.PaintsImage lib scopes) :
    (∃ s, (interpret lib mode options scopes state data mem).1 = .ok (.ok s)) ∨
      ∃ p, (interpret lib mode options scopes state data mem).1 = .error p ∧
        Source lib scopes state mem p := by
  have hscopes : ∀ s ∈ scopes, ∀ e ∈ s.dict,
      Met lib (scopes.map Scope.dict) (mem.cache.entries.map Prod.snd) e.2 :=
    fun s hs _ he => .root (List.mem_map_of_mem hs) he
  have hinline : mode = .shapes → ∀ o ∈ Operation.readAll data, o.op = .inlineImage → ∀ s,
      o.operand 0 "image" Obj.stream? = .ok s →
      Met lib (scopes.map Scope.dict) (mem.cache.entries.map Prod.snd)
        (InlineData.expand lib.order s).toObj :=
    fun hmode o ho hop _ _ => absurd (.inl hop) (h hmode o ho)
  have hyields := interpret_yields (domain_met lib scopes state mem) mode options hscopes
    (safe_source lib scopes state mem) hinline mem fun e he => .inl (List.mem_map_of_mem he)
  rcases hrun : interpret lib mode options scopes state data mem with ⟨p | e | s, mem'⟩
  · rw [hrun] at hyields
    exact .inr ⟨p, rfl, hyields⟩
  · obtain ⟨r, hr, herror⟩ := Run.bind_eq_ok_iff.mp (congrArg Prod.fst hrun)
    cases r with
    | error e' => exact absurd hr (Machine.performAll_not_error h)
    | ok n => cases herror
  · exact .inl ⟨s, rfl⟩

end Content

/-- Resources with a form whose content is an image without a size, and a space of two components for
which no space of two stands in. -/
def Scope.sizeless : Scope :=
  ⟨0, [("XObject", .dict [("F", .stream [("Subtype", .name "Form")] (Bytes.ofAscii "BI ID")
    none)]), ("ColorSpace", .dict [("C", .array [.name "ICCBased", .dict [("N", .num 2)]])])]⟩

theorem Operation.readAll_sizeless : readAll (Bytes.ofAscii ")/F Do w") =
    [⟨.paintXObject, [.name "F"]⟩] := by cbv

/-- A sign without digits is zero. -/
theorem Operation.readAll_twoInks : readAll (Bytes.ofAscii "/C cs - - sc") =
    [⟨.setFillSpace, [.name "C"]⟩, ⟨.setFillColor, [.num 0, .num 0]⟩] := by cbv

/-- Neither a stray token nor a missing operand nor a form that cannot be painted stops content, but
an image of its own does, and a colour of too few components is a panic. -/
theorem Content.interpret_contained_sizeless :
    let scopes := [Scope.sizeless]
    let mem := Memory.initial .empty 1
    let stray := Bytes.ofAscii ")/F Do w"
    let twoInks := Bytes.ofAscii "/C cs - - sc"
    (∀ o ∈ Operation.readAll stray, ¬ o.PaintsImage .empty scopes) ∧
      (∃ s, (interpret .empty .shapes .default scopes .initial stray mem).1 = .ok (.ok s)) ∧
      (∃ e, (interpret .empty .shapes .default scopes .initial (Bytes.ofAscii "BI ID") mem).1 =
        .ok (.error e)) ∧
      (interpret .empty .text .default scopes .initial twoInks mem).1 = .error .missingComponent ∧
      Source .empty scopes .initial mem .missingComponent := by
  intro scopes mem stray twoInks
  have himage : ∀ o ∈ Operation.readAll stray, ¬ o.PaintsImage .empty scopes := by
    intro o ho
    rw [Operation.readAll_sizeless] at ho
    obtain rfl := List.mem_singleton.mp ho
    rintro (hinline | ⟨-, name, hname, hfound⟩)
    · cases hinline
    · cases hname
      cases hfound
  have hpanic : (interpret .empty .text .default scopes .initial twoInks mem).1 =
      .error .missingComponent := by
    unfold interpret scene
    rw [Operation.readAll_twoInks]
    rfl
  refine ⟨himage, ?_, ⟨.object (.imageSize 0 0), by cbv⟩, hpanic, ?_⟩
  · rcases interpret_contained .empty .shapes .default scopes .initial stray mem (fun _ => himage) with
      hscene | ⟨p, hp, -⟩
    · exact hscene
    · have hends : (interpret .empty .shapes .default scopes .initial stray mem).1.toBool = true := by
        decide +kernel
      rw [hp] at hends
      cases hends
  · have hmode : ∀ {C : Prop}, Mode.text = .shapes → C := by
      intro _ h
      cases h
    rcases interpret_contained .empty .text .default scopes .initial twoInks mem hmode with
      ⟨s, hs⟩ | ⟨p, hp, hsource⟩
    · rw [hpanic] at hs
      cases hs
    · rw [hpanic] at hp
      cases hp
      exact hsource

end PdfScene
