import PdfScene.Proofs.Content.Containment
import PdfScene.Proofs.Content.Nesting

/-!
# How content fails

Content stops at an image that cannot be painted, and the error says why. Almost always that is a fault
of decoding: the filters of the image, its samples or its size, if it is too big, are to blame, each
with an error of the kind `decode`. There is one other way. An image that stands in the content states
its size in its own dictionary; if there is none, or the content ends before the dictionary does, the
image is of no size, and that is an error of another kind (`Operation.Unsized`). An image of the
resources is not painted in this case, and nothing stops.
-/

set_option autoImplicit false

namespace PdfScene

/-! ## Faults of decoding -/

/-- Whether an error says that encoded data cannot be decoded. -/
def Error.isDecode : Error → Bool
  | .decode _ _ => true
  | _ => false

/-- An error of decoding is a fault of the data or a panic. -/
def Error.OfDecoding (e : Error) : Prop := e.isDecode = true ∨ ∃ p, e = .panic p

theorem Error.ofDecoding_of_mapError {α : Type} {filter : String} {r : Except DecodeFault α}
    {e : Error} (h : r.mapError (.decode filter) = .error e) : e.OfDecoding := by
  cases r with
  | ok a => cases h
  | error fault => cases h; exact .inl rfl

theorem Predictor.undo_error {parms : Option Dict} {data : Bytes} {e : Error}
    (h : undo parms data = .error e) : e.OfDecoding := by
  unfold undo at h
  split at h
  · cases h
  · dsimp only at h
    split at h
    · cases h
    split at h
    · unfold undoTiff at h
      split at h
      · cases h
      split at h
      · cases h; exact .inr ⟨_, rfl⟩
      · cases h
    split at h
    · cases h
    · cases h; exact .inl rfl

theorem applyFilter_error {inflate : Inflater} {filter : String} {parms : Option Dict} {data : Bytes}
    {e : Error} (h : applyFilter inflate filter parms data = .error e) : e.OfDecoding := by
  have hthen : ∀ {name : String} {r : Except DecodeFault Bytes},
      (r.mapError (.decode name) >>= Predictor.undo parms) = .error e → e.OfDecoding := by
    intro name r h
    cases r with
    | ok data => exact Predictor.undo_error h
    | error fault => cases h; exact .inl rfl
  unfold applyFilter at h
  dsimp only at h
  split at h
  · exact hthen h
  split at h
  · exact hthen h
  split at h
  · cases h
  split at h
  · exact Error.ofDecoding_of_mapError h
  split at h
  · cases h
  · cases h; exact .inl rfl

theorem StreamObj.decodeChain_error {inflate : Inflater} {chain : List (String × Option Dict)}
    {data : Bytes} {e : Error} (h : decodeChain inflate data chain = .error e) : e.OfDecoding := by
  induction chain generalizing data with
  | nil => cases h
  | cons link rest ih =>
    obtain ⟨filter, parms⟩ := link
    unfold decodeChain at h
    split at h
    · cases h
    · cases happlied : applyFilter inflate filter parms data with
      | ok data' =>
        rw [happlied] at h
        exact ih h
      | error e' =>
        rw [happlied] at h
        cases h
        exact applyFilter_error happlied

/-- An error that is answered is no panic. -/
theorem Panic.isDecode_of_apart {α : Type} {r : Except Error α} {e : Error}
    (hr : ∀ e', r = .error e' → e'.OfDecoding) (h : apart r = .ok (.error e)) : e.isDecode = true := by
  obtain ⟨heq, hpanic⟩ := apart_eq_ok_iff.mp h
  rcases hr e heq with hdecode | ⟨p, rfl⟩
  · exact hdecode
  · exact absurd heq (hpanic p)

theorem Memory.decode_error {inflate : Inflater} {s : StreamObj} {mem : Memory} {e : Error}
    (h : (decode inflate s mem).1 = .ok (.error e)) : e.isDecode = true := by
  rcases decode_cases inflate s mem with ⟨-, heq⟩ | ⟨r, d, -, -, heq⟩
  · rw [heq] at h
    exact Panic.isDecode_of_apart (fun _ => StreamObj.decodeChain_error) h
  · rw [heq] at h
    cases h

namespace Image

theorem pixels?_error {image : Image} {data : Decoded} {reader : JpegReader} {e : Error}
    (h : image.pixels? data reader = .error e) : e.OfDecoding := by
  unfold pixels? at h
  split at h
  · unfold decodeSamples at h
    dsimp only at h
    split at h
    · cases h; exact .inl rfl
    · cases hpixels : image.unpack? data.data.toArray <;> rw [hpixels] at h <;> cases h
      exact .inr ⟨_, rfl⟩
  · split at h
    · cases h; exact .inl rfl
    · rename_i jpeg _
      unfold Jpeg.pixels at h
      split at h
      · cases h; exact .inl rfl
      · split at h
        · cases h; exact .inl rfl
        · cases h
  · cases h

/-! ## Images of no size -/

/-- The width and height that a dictionary states, zero where it states none. -/
def statedSize (lib : Library) (d : Dict) : Int × Int :=
  ((lib.int? d "Width").getD 0, (lib.int? d "Height").getD 0)

/-- A width and height that no image has. -/
def NoSize (size : Int × Int) : Prop := size.1 ≤ 0 ∨ size.2 ≤ 0

/-- A size is refused for being none, or else for being too big. -/
theorem checkSize_error {width height : Int} {e : Error} (h : checkSize width height = .error e) :
    NoSize (width, height) ∧ e = .object (.imageSize width height) ∨ e.isDecode = true := by
  unfold checkSize at h
  split at h
  · rename_i hnone
    cases h
    exact .inl ⟨hnone, rfl⟩
  · right
    split at h
    · cases h; rfl
    split at h
    · cases h; rfl
    split at h
    · cases h; rfl
    · cases h

theorem checkSize_of_noSize {width height : Int} (h : NoSize (width, height)) :
    checkSize width height = .error (.object (.imageSize width height)) := if_pos h

/-- Reading an image fails as its size does. -/
theorem read_error {lib : Library} {s : StreamObj} {named : String → Run (Option ColorSpace)}
    {mem : Memory} {e : Error} :
    (read lib s named mem).1 = .ok (.error e) ↔
      checkSize (statedSize lib s.dict).1 (statedSize lib s.dict).2 = .error e := by
  unfold statedSize
  constructor
  · intro h
    have hsize := toBool_of_read h
    unfold read at h
    dsimp only at h ⊢
    cases hcheck : checkSize ((lib.int? s.dict "Width").getD 0) ((lib.int? s.dict "Height").getD 0) with
    | error e' =>
      rw [hcheck] at h
      cases h
      rfl
    | ok _ =>
      rw [hcheck] at hsize
      cases hsize
  · intro h
    unfold read
    dsimp only at h ⊢
    rw [h]
    rfl

end Image

/-- An image in the content that states a size that no image has. -/
def Operation.Unsized (lib : Library) (o : Operation) (width height : Int) : Prop :=
  o.op = .inlineImage ∧ ∃ s, o.operand 0 "image" Obj.stream? = .ok s ∧
    Image.statedSize lib (InlineData.expand lib.order s).dict = (width, height) ∧
      Image.NoSize (width, height)

/-! ## Operations that fail -/

namespace Machine

variable {c : Context} {m : Machine} {o : Operation} {mem : Memory} {e : Error}

theorem paintImage_failed {image : Image} {inContent : Bool}
    (h : (m.paintImage c image inContent mem).1 = .ok (.failed e)) : e.isDecode = true := by
  obtain ⟨e' | data, hdata, h⟩ := Run.bind_eq_ok_iff.mp h
  · cases h
    exact Memory.decode_error hdata
  · obtain ⟨e' | pixels, hpixels, h⟩ := Run.bind_eq_ok_iff.mp h
    · cases h
      exact Panic.isDecode_of_apart (fun _ => Image.pixels?_error) hpixels
    · cases h

theorem paintInline_failed {s : StreamObj} (h : (m.paintInline c s mem).1 = .ok (.failed e)) :
    e.isDecode = true ∨ ∃ width height,
      Image.statedSize c.lib (InlineData.expand c.lib.order s).dict = (width, height) ∧
        Image.NoSize (width, height) ∧ e = .object (.imageSize width height) := by
  obtain ⟨e' | image, hread, h⟩ := Run.bind_eq_ok_iff.mp h
  · cases h
    rcases Image.checkSize_error (Image.read_error.mp hread) with ⟨hnone, heq⟩ | hdecode
    · exact .inr ⟨_, _, rfl, hnone, heq⟩
    · exact .inl hdecode
  · exact .inl (paintImage_failed h)

/-- An image of no size that stands in the content cannot be painted. -/
theorem paintInline_noSize {s : StreamObj} {width height : Int}
    (hsize : Image.statedSize c.lib (InlineData.expand c.lib.order s).dict = (width, height))
    (hnone : Image.NoSize (width, height)) :
    (m.paintInline c s mem).1 = .ok (.failed (.object (.imageSize width height))) := by
  have hread : (Image.read c.lib (InlineData.expand c.lib.order s)
      (fun name => c.scopes.colorSpace? c.lib name) mem).1 =
      .ok (.error (.object (.imageSize width height))) := by
    rw [Image.read_error, hsize]
    exact Image.checkSize_of_noSize hnone
  exact Run.bind_eq_ok_iff.mpr ⟨_, hread, rfl⟩

/-- **An operation fails in decoding, or else is an image of no size.** -/
theorem perform_failed_cases (h : (m.perform c o mem).1 = .ok (.failed e)) :
    e.isDecode = true ∨ ∃ width height, o.Unsized c.lib width height ∧
      e = .object (.imageSize width height) := by
  obtain ⟨hmode, hpaints⟩ := perform_failed h
  have hshapes : c.mode ≠ .text := by rw [hmode]; nofun
  rw [perform_eq] at h
  rcases hpaints with hop | ⟨hop, -⟩
  · rw [hop] at h
    dsimp only [Operator.kind] at h
    rw [if_neg hshapes] at h
    obtain ⟨s, hs, h⟩ := orReject_failed h
    refine (paintInline_failed h).imp id ?_
    rintro ⟨width, height, hsize, hnone, heq⟩
    exact ⟨width, height, ⟨hop, s, hs, hsize, hnone⟩, heq⟩
  · rw [hop] at h
    obtain ⟨name, -, h⟩ := orReject_failed h
    obtain ⟨-, image, mem', -, hpaint⟩ := paintObject_failed h
    exact .inl (paintImage_failed hpaint)

theorem perform_unsized {width height : Int} (hmode : c.mode = .shapes)
    (h : o.Unsized c.lib width height) :
    (m.perform c o mem).1 = .ok (.failed (.object (.imageSize width height))) := by
  obtain ⟨hop, s, hs, hsize, hnone⟩ := h
  have hshapes : c.mode ≠ .text := by rw [hmode]; nofun
  rw [perform_eq, hop]
  dsimp only [Operator.kind]
  rw [if_neg hshapes, hs]
  exact paintInline_noSize hsize hnone

/-- Operations stop with the error of the first one that fails. -/
theorem performAll_error_iff {ops : List Operation} :
    (m.performAll c ops mem).1 = .ok (.error e) ↔
      ∃ before o after n mem', ops = before ++ o :: after ∧
        m.performAll c before mem = (.ok (.ok n), mem') ∧
        (n.perform c o mem').1 = .ok (.failed e) := by
  constructor
  · intro h
    induction ops generalizing m mem with
    | nil => cases h
    | cons o rest ih =>
      have hlater : ∀ (n : Machine) mem₁,
          (∀ before, m.performAll c (o :: before) mem = n.performAll c before mem₁) →
          ∃ before o' after n mem', o :: rest = before ++ o' :: after ∧
            m.performAll c before mem = (.ok (.ok n), mem') ∧
            (n.perform c o' mem').1 = .ok (.failed e) := by
        intro n mem₁ hfirst
        rw [hfirst] at h
        obtain ⟨before, o', after, n', mem', hrest, hbefore, hfailed⟩ := ih h
        exact ⟨o :: before, o', after, n', mem', by rw [hrest, List.cons_append],
          (hfirst before).trans hbefore, hfailed⟩
      rcases hrun : m.perform c o mem with ⟨p | n | ⟨fault, n⟩ | e', mem₁⟩
      · rw [performAll_cons, hrun] at h
        cases h
      · exact hlater n mem₁ fun before => by rw [performAll_cons, hrun]; rfl
      · exact hlater n mem₁ fun before => by rw [performAll_cons, hrun]; rfl
      · rw [performAll_cons, hrun] at h
        cases h
        exact ⟨[], o, rest, m, mem, rfl, rfl, congrArg Prod.fst hrun⟩
  · rintro ⟨before, o, after, n, mem', rfl, hbefore, hfailed⟩
    rw [performAll_append, hbefore]
    dsimp only
    rw [performAll_cons]
    rcases hrun : n.perform c o mem' with ⟨r, mem''⟩
    rw [hrun] at hfailed
    dsimp only at hfailed ⊢
    rw [hfailed]
    rfl

end Machine

/-! ## Content that fails -/

namespace Content

variable (lib : Library) (options : Options) (scopes : Scopes) (state : GraphicsState) (data : Bytes)
  (mem : Memory)

theorem interpret_error_iff {mode : Mode} {e : Error} :
    (interpret lib mode options scopes state data mem).1 = .ok (.error e) ↔
      ((Reading.root options scopes state data).run lib mode options mem).1 = .ok (.error e) := by
  rw [interpret_eq, Reading.scene_eq, Run.map_apply]
  rcases ((Reading.root options scopes state data).run lib mode options mem).1 with p | e' | m
  · exact ⟨nofun, nofun⟩
  · exact ⟨fun h => by cases h; rfl, fun h => by cases h; rfl⟩
  · exact ⟨nofun, nofun⟩

/-- **Content fails in decoding an image, or else at an image of no size that stands in it.** The
latter is the first operation that fails, and it fails whatever else there is: nothing but such an
image makes content fail in any other way. Which size an image has whose dictionary states two of one
key is a matter of the order in which dictionaries are gone through. -/
theorem interpret_failures :
    (∀ mode e, (interpret lib mode options scopes state data mem).1 = .ok (.error e) →
      e.isDecode = true ∨ ∃ width height, e = .object (.imageSize width height)) ∧
    ∀ fault, (interpret lib .shapes options scopes state data mem).1 = .ok (.error (.object fault)) ↔
      ∃ before o after n mem' width height, Operation.readAll data = before ++ o :: after ∧
        (Machine.start state).performAll
          ((Reading.root options scopes state data).context lib .shapes options) before mem =
            (.ok (.ok n), mem') ∧
        o.Unsized lib width height ∧ fault = .imageSize width height := by
  refine ⟨fun mode e h => ?_, fun fault => ?_⟩
  · rw [interpret_error_iff] at h
    obtain ⟨before, o, after, n, mem', -, -, hfailed⟩ := Machine.performAll_error_iff.mp h
    rcases Machine.perform_failed_cases hfailed with hdecode | ⟨width, height, -, heq⟩
    · exact .inl hdecode
    · exact .inr ⟨width, height, heq⟩
  · rw [interpret_error_iff]
    unfold Reading.run
    rw [Machine.performAll_error_iff]
    constructor
    · rintro ⟨before, o, after, n, mem', hread, hbefore, hfailed⟩
      rcases Machine.perform_failed_cases hfailed with hdecode | ⟨width, height, hunsized, heq⟩
      · cases hdecode
      · cases heq
        exact ⟨before, o, after, n, mem', width, height, hread, hbefore, hunsized, rfl⟩
    · rintro ⟨before, o, after, n, mem', width, height, hread, hbefore, hunsized, rfl⟩
      exact ⟨before, o, after, n, mem', hread, hbefore, Machine.perform_unsized rfl hunsized⟩

/-- An image without a dictionary stops content that saves the state before it and restores it behind
it. -/
theorem interpret_failures_sizeless :
    (interpret .empty .shapes .default [] .initial (Bytes.ofAscii "q BI ID EI Q")
      (.initial .empty 0)).1 = .ok (.error (.object (.imageSize 0 0))) := by
  have hread : Operation.readAll (Bytes.ofAscii "q BI ID EI Q") =
      [⟨.save, []⟩] ++ ⟨.inlineImage, [.stream [] [] none]⟩ :: [⟨.restore, []⟩] := by cbv
  have hunsized : Operation.Unsized .empty ⟨.inlineImage, [.stream [] [] none]⟩ 0 0 :=
    ⟨rfl, ⟨[], [], none⟩, rfl, rfl, .inl (Int.le_refl 0)⟩
  obtain ⟨-, hobject⟩ := interpret_failures .empty .default [] .initial
    (Bytes.ofAscii "q BI ID EI Q") (.initial .empty 0)
  exact (hobject _).mpr ⟨_, _, _, _, _, 0, 0, hread, rfl, hunsized, rfl⟩

end Content

end PdfScene
