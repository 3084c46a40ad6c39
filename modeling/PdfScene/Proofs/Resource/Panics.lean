import PdfScene.Proofs.Image.Pixels
import PdfScene.Proofs.Resource.Remembering

/-!
# Where readers panic

A panic of a reader is one of two things: that of a stream that it decodes, or a component that there
is not in a colour of a space that it reads. Which streams and spaces can come up is a question of
what can be reached, and is left open here: `Library.Domain` is a set of objects that reading does not
lead away from, together with what decoding its streams comes to and the panics that it allows.

`Run.Yields` is then a rule for each reader: it comes to an answer, of which something is known, or to
a panic that is allowed. Nothing is assumed of what is remembered but that it was decoded from the
domain, or is counted to it.
-/

set_option autoImplicit false

namespace PdfScene

/-! ## Answers and allowed panics -/

/-- A memory that holds only what a set of decoded data has. -/
def Memory.Within (D : Decoded → Prop) (m : Memory) : Prop := ∀ e ∈ m.cache.entries, D e.2

/-- From memories within `D`, a computation comes to an answer in `R` and leaves one, or comes to a
panic in `Q`. -/
def Run.Yields (D : Decoded → Prop) (Q : Panic → Prop) {α : Type} (R : α → Prop) (x : Run α) : Prop :=
  ∀ m : Memory, m.Within D →
    match x m with
    | (.ok a, m') => R a ∧ m'.Within D
    | (.error p, _) => Q p

namespace Run

variable {D : Decoded → Prop} {Q : Panic → Prop} {α β : Type} {R R' : α → Prop} {S : β → Prop}
  {x : Run α}

theorem Yields.pure {a : α} (h : R a) : Yields D Q R (Pure.pure a) := fun _ hm => ⟨h, hm⟩

theorem Yields.bind {f : α → Run β} (h : Yields D Q R x) (hf : ∀ a, R a → Yields D Q S (f a)) :
    Yields D Q S (x >>= f) := by
  intro m hm
  have hx := h m hm
  rcases hrun : x m with ⟨p | a, m'⟩
  · rw [hrun] at hx
    rw [bind_of_error (congrArg Prod.fst hrun)]
    exact hx
  · rw [hrun] at hx
    rw [bind_of_eq hrun]
    exact hf a hx.1 m' hx.2

theorem Yields.mono (h : Yields D Q R x) (hr : ∀ a, R a → R' a) : Yields D Q R' x := by
  intro m hm
  have hx := h m hm
  rcases hrun : x m with ⟨p | a, m'⟩ <;> rw [hrun] at hx
  · exact hx
  · exact ⟨hr a hx.1, hx.2⟩

/-- What is known of every answer is known of those that are yielded. -/
theorem Yields.of_answer (h : Yields D Q R x) (hr : ∀ m a, (x m).1 = .ok a → R' a) :
    Yields D Q R' x := by
  intro m hm
  have hx := h m hm
  rcases hrun : x m with ⟨p | a, m'⟩ <;> rw [hrun] at hx
  · exact hx
  · exact ⟨hr m a (congrArg Prod.fst hrun), hx.2⟩

theorem Yields.of {r : Except Panic α} (hok : ∀ a, r = .ok a → R a) (hpanic : ∀ p, r = .error p → Q p) :
    Yields D Q R (Run.of r) := by
  intro m hm
  rcases r with p | a
  · exact hpanic p rfl
  · exact ⟨hok a rfl, hm⟩

theorem Yields.map {g : α → β} (h : Yields D Q R x) (hg : ∀ a, R a → S (g a)) :
    Yields D Q S (g <$> x) :=
  h.bind fun a ha => .pure (hg a ha)

/-- Changes that leave the decoded data alone. -/
theorem Yields.change {g : Memory → Memory} (hg : ∀ m, (g m).cache = m.cache) :
    Yields D Q (fun _ => True) (Run.change g) := fun m hm => by
  refine ⟨trivial, ?_⟩
  unfold Memory.Within
  rw [hg]
  exact hm

theorem Yields.issueId : Yields D Q (fun _ => True) Memory.issueId := fun _ hm => ⟨trivial, hm⟩

end Run

/-! ## Domains -/

/-- Objects that reading does not lead away from, what their streams decode to, and the panics that
come of decoding them and of the colours of their spaces. -/
structure Library.Domain (lib : Library) (P : Obj → Prop) (D : Decoded → Prop) (Q : Panic → Prop) :
    Prop extends lib.Closed P where
  decoded : ∀ (s : StreamObj) d, P s.toObj → s.decode lib.inflate = .ok d → D d
  panic : ∀ (s : StreamObj) p, P s.toObj → s.decode lib.inflate = .error (.panic p) → Q p
  space : ∀ o m space, P o → (ColorSpace.read lib o m).1 = .ok (some space) →
    space.Consistent ∨ Q .missingComponent

/-- The colours of a space have all their components, or a missing one is allowed. -/
def ColorSpace.Safe (Q : Panic → Prop) (space : ColorSpace) : Prop :=
  space.Consistent ∨ Q .missingComponent

section

open Run

variable {lib : Library} {P : Obj → Prop} {D : Decoded → Prop} {Q : Panic → Prop}

/-! ## Streams and spaces -/

namespace Library.Domain

variable (h : lib.Domain P D Q)
include h

theorem decode {s : StreamObj} (hs : P s.toObj) :
    Yields D Q (fun r => ∀ d, r = .ok d → D d) (Memory.decode lib.inflate s) := by
  intro m hm
  rcases Memory.decode_cases lib.inflate s m with ⟨-, heq⟩ | ⟨r, d, -, hknown, heq⟩
  · rw [heq]
    cases hpanic : Panic.apart (s.decode lib.inflate) with
    | error p => exact h.panic s p hs (Panic.apart_eq_error_iff.mp hpanic)
    | ok r =>
      obtain ⟨heq, -⟩ := Panic.apart_eq_ok_iff.mp hpanic
      exact ⟨fun d hd => h.decoded s d hs (heq.trans hd), hm⟩
  · have hd : D d := by
      rcases hknown with hfound | hd
      · exact hm _ (DecodeCache.mem_of_find? hfound)
      · exact h.decoded s d hs hd
    rw [heq]
    refine ⟨fun d' hd' => Except.ok.inj hd' ▸ hd, fun e he => ?_⟩
    rcases DecodeCache.mem_use he with rfl | he
    · exact hd
    · exact hm e he

/-- What is read by resolving and decoding alone yields an answer or an allowed panic. -/
theorem compositional : Compositional lib P (Yields D Q fun _ => True) where
  toClosed := h.toClosed
  pure _ := .pure trivial
  bind hx hf := hx.bind fun a _ => hf a
  decode hs := (h.decode hs).mono fun _ _ => trivial

/-- The space that is read, if it is one, is safe. -/
theorem readSpace {o : Obj} (ho : P o) :
    Yields D Q (fun a => ∀ space ∈ a, space.Safe Q) (ColorSpace.read lib o) :=
  (h.compositional.colorSpace ho).of_answer fun m _ ha space hspace =>
    h.space o m space ho (hspace ▸ ha)

end Library.Domain

/-! ## Images and forms -/

theorem ColorSpace.Safe.of_deviceName {name : String} {space : ColorSpace}
    (h : ofDeviceName? name = some space) : space.Safe Q := by
  left
  intro n alternate hpart
  unfold ofDeviceName? at h
  split_ifs at h <;> cases h <;> cases hpart

theorem ColorSpace.Safe.of_name {name : String} {space : ColorSpace}
    (h : ofName? name = some space) : space.Safe Q := by
  rcases Option.or_eq_some_iff.mp h with h | ⟨-, h⟩
  · exact .of_deviceName h
  · left
    intro n alternate hpart
    unfold ofCalibratedName? at h
    split_ifs at h <;> cases h <;> cases hpart

theorem ColorSpace.Safe.deviceGray : deviceGray.Safe Q := .inl fun _ _ hpart => by cases hpart

/-- An image of the domain whose space, if it has one, is safe. -/
structure Image.Safe (P : Obj → Prop) (Q : Panic → Prop) (image : Image) : Prop where
  stream : P image.stream.toObj
  bits : IsWidth image.bits
  space : ∀ space, image.space = some space → space.Safe Q

/-- Pixels lack a component only in a space where other components are asked for than there are. -/
theorem Image.pixels?_panic {image : Image} {data : Decoded} {reader : JpegReader} {p : Panic}
    (hbits : IsWidth image.bits) (h : image.pixels? data reader = .error (.panic p)) :
    p = .missingComponent ∧ ∃ space, image.space = some space ∧ ¬ space.Consistent := by
  unfold pixels? at h
  split at h
  · unfold decodeSamples at h
    dsimp only at h
    split at h
    · cases h
    · cases hpixels : image.unpack? data.data.toArray <;> rw [hpixels] at h <;> cases h
      obtain ⟨i, -, hnone⟩ := gathered_none (unpack?_eq image _ ▸ hpixels)
      exact ⟨rfl, of_pixel?_eq_none hbits hnone⟩
  · split at h
    · cases h
    · rename_i jpeg _
      unfold Jpeg.pixels at h
      split at h
      · cases h
      · split at h <;> cases h
  · cases h

/-- A form of the domain, with its own resources. -/
structure Form.Within (P : Obj → Prop) (f : Form) : Prop where
  stream : P f.stream.toObj
  resources : ∀ s ∈ f.resources, ∀ e ∈ s.dict, P e.2

/-- What is known of an image or a form of the domain. -/
def XObject.Safe (P : Obj → Prop) (Q : Panic → Prop) : XObject → Prop
  | image i => i.Safe P Q
  | form f => f.Within P

namespace Library.Domain

variable (h : lib.Domain P D Q)
include h

theorem readImageSpace {d : Dict} {named : String → Run (Option ColorSpace)} (hd : ∀ e ∈ d, P e.2)
    (hnamed : ∀ name, Yields D Q (fun a => ∀ space ∈ a, space.Safe Q) (named name)) :
    Yields D Q (·.Safe Q) (Image.readSpace lib d named) := by
  have hgiven : ∀ space : Option ColorSpace, (∀ s ∈ space, s.Safe Q) →
      Yields D Q (·.Safe Q) (pure (space.getD .deviceGray)) := by
    intro space hspace
    cases space with
    | none => exact .pure .deviceGray
    | some space => exact .pure (hspace space rfl)
  unfold Image.readSpace
  split
  · rename_i name _
    cases hdevice : ColorSpace.ofDeviceName? name with
    | some space => exact hgiven _ fun _ hs => .of_deviceName (hdevice.trans hs)
    | none =>
      refine (hnamed name).bind fun space hspace => ?_
      cases space with
      | none => exact hgiven _ fun _ => .of_name
      | some space => exact hgiven _ hspace
  · rename_i o _ ho
    exact (h.readSpace (h.toClosed.get hd ho)).bind hgiven
  · exact hgiven none nofun

theorem readImage {s : StreamObj} {named : String → Run (Option ColorSpace)} (hs : P s.toObj)
    (hnamed : ∀ name, Yields D Q (fun a => ∀ space ∈ a, space.Safe Q) (named name)) :
    Yields D Q (fun r => ∀ image, r = .ok image → image.Safe P Q) (Image.read lib s named) := by
  have hentries : ∀ e ∈ s.dict, P e.2 := fun _ he => h.entry hs rfl he
  unfold Image.read
  dsimp only
  cases Image.checkSize ((lib.int? s.dict "Width").getD 0) ((lib.int? s.dict "Height").getD 0) with
  | error e => exact .pure nofun
  | ok _ =>
    have hspace : Yields D Q (fun a => ∀ space, a = some space → space.Safe Q)
        (some <$> Image.readSpace lib s.dict named) := by
      refine (h.readImageSpace hentries hnamed).map fun space hspace _ heq => ?_
      exact Option.some.inj heq ▸ hspace
    have hnone : Yields D Q (fun a : Option ColorSpace => ∀ space, a = some space → space.Safe Q)
        (pure none) := .pure nofun
    have hmade : ∀ image : Image, image.stream = s → Image.IsWidth image.bits →
        (∀ space, image.space = some space → space.Safe Q) →
        Yields D Q (fun r => ∀ image, r = .ok image → image.Safe P Q)
          (pure (.ok image : Except Error Image)) := by
      intro image hstream hbits hspace
      refine .pure ?_
      rintro _ ⟨⟩
      exact ⟨hstream ▸ hs, hbits, hspace⟩
    have hbits := Image.isWidth_readBits lib s.dict ((lib.bool? s.dict "ImageMask").getD false)
    cases hr : s.ref with
    | some r =>
      dsimp only
      split
      · exact hnone.bind fun _ hspace => hmade _ rfl hbits hspace
      · exact hspace.bind fun _ hspace => hmade _ rfl hbits hspace
    | none =>
      dsimp only
      split
      · exact hnone.bind fun _ hspace => Yields.issueId.bind fun _ _ => hmade _ rfl hbits hspace
      · exact hspace.bind fun _ hspace => Yields.issueId.bind fun _ _ => hmade _ rfl hbits hspace

theorem readForm {s : StreamObj} (hs : P s.toObj) :
    Yields D Q (·.Within P) (Form.read lib s) := by
  have hentries : ∀ e ∈ s.dict, P e.2 := fun _ he => h.entry hs rfl he
  have hscope : ∀ {d}, lib.resources? s.dict = some d →
      Yields D Q (fun a => ∀ t ∈ a, ∀ e ∈ t.dict, P e.2) (some <$> Scope.create d) := by
    intro d hd
    have hcreate : Yields D Q (fun t => t.dict = d) (Scope.create d) := fun _ hm => ⟨rfl, hm⟩
    refine hcreate.map fun t ht _ heq => ?_
    obtain rfl := Option.some.inj heq
    exact ht ▸ h.toClosed.getDict hentries hd
  have hnone : Yields D Q (fun a : Option Scope => ∀ t ∈ a, ∀ e ∈ t.dict, P e.2) (pure none) :=
    .pure nofun
  unfold Form.read
  cases hd : lib.resources? s.dict with
  | some d =>
    cases hr : s.ref with
    | some r => exact (hscope hd).bind fun _ hresources => .pure ⟨hs, hresources⟩
    | none =>
      exact (hscope hd).bind fun _ hresources =>
        Yields.issueId.bind fun _ _ => .pure ⟨hs, hresources⟩
  | none =>
    cases hr : s.ref with
    | some r => exact hnone.bind fun _ hresources => .pure ⟨hs, hresources⟩
    | none =>
      exact hnone.bind fun _ hresources => Yields.issueId.bind fun _ _ => .pure ⟨hs, hresources⟩

/-! ## Names -/

theorem scopeFont (name : String) {s : Scope} (hs : ∀ e ∈ s.dict, P e.2) :
    Yields D Q (fun _ => True) (Scope.font? lib name s) := by
  have hfind : Yields D Q (fun _ => True) (Memory.findFont? s.id name) := fun _ hm => ⟨trivial, hm⟩
  refine hfind.bind fun found _ => ?_
  cases found with
  | some font => exact .pure trivial
  | none =>
    dsimp only
    cases hd : (s.entry? lib "Font" name).bind fun o => (lib.resolve o).dict? with
    | none => exact .pure trivial
    | some d =>
      obtain ⟨o, ho, hod⟩ := Option.bind_eq_some_iff.mp hd
      have hfont := h.toClosed.resolve (h.toClosed.scopeEntry hs ho)
      refine (h.compositional.font fun _ he => h.entry hfont hod he).bind fun font _ => ?_
      have hkeep : Yields D Q (fun _ => True) (Run.change (Memory.keepFont s.id name font)) :=
        .change fun _ => rfl
      exact hkeep.bind fun _ _ => .pure trivial

theorem scopeSpace (name : String) {s : Scope} (hs : ∀ e ∈ s.dict, P e.2) :
    Yields D Q (fun a => ∀ space ∈ a, space.Safe Q) (Scope.colorSpace? lib name s) := by
  unfold Scope.colorSpace?
  cases ho : s.entry? lib "ColorSpace" name with
  | none => exact .pure nofun
  | some o => exact h.readSpace (h.toClosed.scopeEntry hs ho)

theorem scopeXObject (name : String) {s : Scope} (hs : ∀ e ∈ s.dict, P e.2) :
    Yields D Q (fun a : Option XObject => ∀ x ∈ a, x.Safe P Q) (Scope.xobject? lib name s) := by
  unfold Scope.xobject?
  cases hstream : (s.entry? lib "XObject" name).bind fun o => (lib.resolve o).stream? with
  | none => exact .pure fun _ hx => nomatch hx
  | some stream =>
    obtain ⟨o, ho, hos⟩ := Option.bind_eq_some_iff.mp hstream
    have hheld : P stream.toObj := Closed.stream (h.toClosed.resolve (h.toClosed.scopeEntry hs ho)) hos
    dsimp only
    split
    · refine (h.readImage hheld fun name => h.scopeSpace name hs).bind fun r hr => ?_
      cases r with
      | error e => exact .pure fun _ hx => nomatch hx
      | ok image =>
        refine .pure fun x hx => ?_
        obtain rfl := Option.some.inj hx
        exact hr image rfl
    · refine (h.readForm hheld).bind fun form hform => .pure fun x hx => ?_
      obtain rfl := Option.some.inj hx
      exact hform
    · exact .pure fun _ hx => nomatch hx

end Library.Domain

/-- A search yields what the look-ups in its scopes yield. -/
theorem Scopes.find_yields {α : Type} {R : α → Prop} {f : Scope → Run (Option α)} {S : Scopes}
    (h : ∀ s ∈ S, Yields D Q (fun a => ∀ x ∈ a, R x) (f s)) :
    Yields D Q (fun a => ∀ x ∈ a, R x) (find f S) := by
  induction S with
  | nil => exact .pure nofun
  | cons s outer ih =>
    obtain ⟨hs, houter⟩ := List.forall_mem_cons.mp h
    refine hs.bind fun a ha => ?_
    cases a with
    | none => exact ih houter
    | some a => exact .pure ha

end

end PdfScene
