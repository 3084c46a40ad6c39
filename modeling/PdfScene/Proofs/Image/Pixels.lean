import PdfScene.Proofs.Color.Arity
import PdfScene.Proofs.Image.Samples
import PdfScene.Proofs.Resource.Remembering

/-!
# Pixels of images

Decoding asks for a sample of each component of a pixel, for both ends of the range that it is brought
into, and for as many components as the colour takes. The first two are always there
(`Image.values?_eq`), and so is the third where each profile in the colour space has as many components
as the space that stands in for it. An image that is read makes pixels of its data then, four bytes
each, unless too much of the data is missing: `Image.Decodes`.

A profile of two components that no space of two stands in for is stood in for by one of three, and an
image in it has no colours at all. This is the one fault that is left (`Image.decodeSamples_spec`).
-/

set_option autoImplicit false

namespace PdfScene.Image

variable {image : Image}

/-! ## What is asked for is there -/

theorem length_defaultDecode (space : ColorSpace) (bits : Nat) :
    (space.defaultDecode bits).length = 2 * max 1 space.components := by
  cases space <;>
    simp [ColorSpace.defaultDecode, ColorSpace.components, List.length_flatten, Nat.mul_comm]

/-- There is a range for each component, those that the image states included. -/
theorem le_length_sampleRanges (image : Image) :
    2 * image.components ≤ image.sampleRanges.length := by
  have hstated : ∀ {n : Nat} {default ranges : List Float}, n ≤ default.length →
      n ≤ (if default.length ≤ ranges.length then ranges else default).length := by
    intro n default ranges hlength
    split <;> omega
  unfold components sampleRanges
  cases image.space with
  | none =>
    cases image.ranges with
    | none => exact Nat.le_refl _
    | some ranges => exact hstated (Nat.le_refl _)
  | some space =>
    have hlength := (length_defaultDecode space image.bits).ge
    cases image.ranges with
    | none => exact hlength
    | some ranges => exact hstated hlength

/-- Each component of a pixel is its sample, brought into its range. -/
theorem values?_eq (hbits : IsWidth image.bits) (data : Array UInt8) (row column : Nat) :
    image.values? image.sampleRanges.toArray data row column =
      some ((List.range image.components).map fun c =>
        scaled ((image.sampleAt? data row column c).getD 0) image.bits
          (image.sampleRanges.getD (2 * c) 0) (image.sampleRanges.getD (2 * c + 1) 0)) := by
  apply ColorSpace.mapM_some
  intro c hc
  have hlength := image.le_length_sampleRanges
  rw [List.mem_range] at hc
  obtain ⟨n, hn⟩ := exists_sampleAt? hbits data row column c
  rw [hn, List.getElem?_toArray, List.getElem?_toArray, List.getElem?_eq_getElem (by omega),
    List.getElem?_eq_getElem (by omega), List.getD_eq_getElem _ _ (by omega),
    List.getD_eq_getElem _ _ (by omega)]
  rfl

theorem pixel?_completed (hbits : IsWidth image.bits) (data : Bytes) {row column : Nat}
    (hrow : row < image.height) (hcolumn : column < image.width) :
    image.pixel? image.sampleRanges.toArray (image.completed data).toArray row column =
      image.pixel? image.sampleRanges.toArray data.toArray row column := by
  have hvalues : image.values? image.sampleRanges.toArray (image.completed data).toArray row column =
      image.values? image.sampleRanges.toArray data.toArray row column := by
    rw [values?_eq hbits, values?_eq hbits]
    refine congrArg some (List.map_congr_left fun c hc => ?_)
    rw [sampleAt?_completed hbits data hrow hcolumn (List.mem_range.mp hc)]
  rw [pixel?, hvalues, pixel?]

/-! ## Pixels one after another -/

/-- The bytes of the first pixels, if there are any for each. -/
def gathered (pixel? : Nat → Option (List UInt8)) (n : Nat) : Option (Array UInt8) :=
  Nat.fold n (fun i _ rgba => do
    let rgba ← rgba
    let pixel ← pixel? i
    some (rgba ++ pixel)) (some #[])

section

variable {f g : Nat → Option (List UInt8)} {n : Nat}

theorem gathered_succ (f : Nat → Option (List UInt8)) (n : Nat) :
    gathered f (n + 1) =
      (gathered f n).bind fun rgba => (f n).map fun pixel : List UInt8 => rgba ++ pixel := by
  unfold gathered
  rw [Nat.fold_succ]
  cases Nat.fold n _ _ with
  | none => rfl
  | some rgba => cases f n <;> rfl

theorem gathered_congr (h : ∀ i < n, f i = g i) : gathered f n = gathered g n := by
  induction n with
  | zero => rfl
  | succ n ih =>
    rw [gathered_succ, gathered_succ, ih fun i hi => h i (Nat.lt_succ_of_lt hi), h n n.lt_succ_self]

/-- Where pixels have four bytes each, a pixel is found behind those before it. -/
theorem gathered_some (hfour : ∀ i pixel, f i = some pixel → pixel.length = 4) {rgba : Array UInt8}
    (h : gathered f n = some rgba) : rgba.size = 4 * n ∧
      ∀ i < n, f i = some ((rgba.toList.drop (4 * i)).take 4) := by
  induction n generalizing rgba with
  | zero =>
    cases h
    exact ⟨rfl, nofun⟩
  | succ n ih =>
    rw [gathered_succ] at h
    obtain ⟨before, hbefore, h⟩ := Option.bind_eq_some_iff.mp h
    obtain ⟨pixel, hpixel, rfl⟩ := Option.map_eq_some_iff.mp h
    obtain ⟨hsize, hfound⟩ := ih hbefore
    have hlength := hfour n pixel hpixel
    have hlist : (before ++ pixel).toList = before.toList ++ pixel := Array.toList_appendList
    constructor
    · rw [← Array.length_toList, hlist, List.length_append, Array.length_toList]
      omega
    · intro i hi
      rw [hlist]
      rcases Nat.lt_succ_iff_lt_or_eq.mp hi with hi | rfl
      · rw [hfound i hi, List.drop_append_of_le_length (by rw [Array.length_toList]; omega),
          List.take_append_of_le_length (by rw [List.length_drop, Array.length_toList]; omega)]
      · rw [List.drop_left' (by rw [Array.length_toList, hsize]), List.take_of_length_le hlength.le,
          hpixel]

theorem gathered_none (h : gathered f n = none) : ∃ i < n, f i = none := by
  induction n with
  | zero => cases h
  | succ n ih =>
    rw [gathered_succ] at h
    cases hbefore : gathered f n with
    | none =>
      obtain ⟨i, hi, hnone⟩ := ih hbefore
      exact ⟨i, Nat.lt_succ_of_lt hi, hnone⟩
    | some rgba =>
      rw [hbefore] at h
      exact ⟨n, n.lt_succ_self, Option.map_eq_none_iff.mp h⟩

end

/-! ## Images that are read -/

section

variable {lib : Library} {s : StreamObj} {named : String → Run (Option ColorSpace)} {m : Memory}

theorem isWidth_readBits (lib : Library) (d : Dict) (stencil : Bool) :
    IsWidth (readBits lib d stencil) := by
  unfold readBits
  split
  · exact .inl rfl
  · split
    · split
      · rename_i n hn
        rcases hn with rfl | rfl | rfl | rfl <;> decide
      · decide
    · decide

/-- An image that is read has a size, samples of a width that there is, and no space or the one that
is read. -/
theorem of_read (h : (read lib s named m).1 = .ok (.ok image)) :
    0 < image.width ∧ 0 < image.height ∧ IsWidth image.bits ∧
      (image.space = none ∨
        ∃ space, (readSpace lib s.dict named m).1 = .ok space ∧ image.space = some space) := by
  have hsize : ∀ {width height : Int}, checkSize width height = .ok () →
      0 < width.toNat ∧ 0 < height.toNat := by
    intro width height hcheck
    unfold checkSize at hcheck
    split at hcheck
    · cases hcheck
    · omega
  unfold read at h
  dsimp only at h
  cases hcheck : checkSize ((lib.int? s.dict "Width").getD 0) ((lib.int? s.dict "Height").getD 0) with
  | error e =>
    rw [hcheck] at h
    cases h
  | ok _ =>
    rw [hcheck] at h
    obtain ⟨hwidth, hheight⟩ := hsize hcheck
    cases hstencil : (lib.bool? s.dict "ImageMask").getD false
    case true =>
      cases href : s.ref <;> rw [hstencil, href] at h <;> cases h <;>
        exact ⟨hwidth, hheight, isWidth_readBits lib s.dict true, .inl rfl⟩
    case false =>
      rw [hstencil] at h
      obtain ⟨space, hmap, h⟩ := Run.bind_eq_ok_iff.mp h
      obtain ⟨space, hspace, hsome⟩ := Run.bind_eq_ok_iff.mp hmap
      cases hsome
      cases href : s.ref <;> rw [href] at h <;> cases h <;>
        exact ⟨hwidth, hheight, isWidth_readBits lib s.dict false, .inr ⟨space, hspace, rfl⟩⟩

/-- In the space of an image all profiles are stood in for, if they are in those of named spaces. -/
theorem readSpace_profiled (hnamed : ∀ name, ColorSpace.ReadsProfiled (named name)) {d : Dict}
    {space : ColorSpace} (h : (readSpace lib d named m).1 = .ok space) : space.Profiled := by
  have hgray : ∀ a : Option ColorSpace, (∀ space, a = some space → space.Profiled) →
      (a.getD .deviceGray).Profiled := by
    intro a ha
    cases a with
    | none => exact .ofComponents 1
    | some space => exact ha space rfl
  obtain ⟨reading, hreading⟩ : ∃ reading, reading = readSpace lib d named := ⟨_, rfl⟩
  rw [← hreading] at h
  unfold readSpace at hreading
  split at hreading
  · rename_i name _
    cases hdevice : ColorSpace.ofDeviceName? name with
    | some device =>
      rw [hdevice] at hreading
      subst hreading
      cases h
      exact .ofDeviceName? hdevice
    | none =>
      rw [hdevice] at hreading
      subst hreading
      obtain ⟨found, hfound, h⟩ := Run.bind_eq_ok_iff.mp h
      cases found with
      | some found =>
        cases h
        exact hnamed name m found hfound
      | none =>
        cases h
        exact hgray _ fun space => .ofName?
  · rename_i o _ _
    have hread : ColorSpace.ReadsProfiled (ColorSpace.read lib o) :=
      ColorSpace.readWithin_profiled lib _ o
    subst hreading
    obtain ⟨found, hfound, h⟩ := Run.bind_eq_ok_iff.mp h
    cases h
    exact hgray found fun space hspace => hread m space (hspace ▸ hfound)
  · subst hreading
    cases h
    exact .ofComponents 1

end

/-! ## Pixels -/

theorem unpack?_eq (image : Image) (data : Array UInt8) : image.unpack? data =
    gathered (fun i => image.pixel? image.sampleRanges.toArray data (i / image.width) (i % image.width))
      (image.width * image.height) := rfl

theorem length_pixel? {ranges : Array Float} {data : Array UInt8} {row column : Nat}
    {pixel : List UInt8} (h : image.pixel? ranges data row column = some pixel) : pixel.length = 4 := by
  obtain ⟨values, -, hshade⟩ := Option.bind_eq_some_iff.mp h
  unfold shade? at hshade
  split at hshade
  · obtain ⟨color, -, rfl⟩ := Option.map_eq_some_iff.mp hshade
    cases color <;> rfl
  · obtain ⟨value, -, rfl⟩ := Option.map_eq_some_iff.mp hshade
    rfl

/-- A pixel lacks a component only in a space where other components are asked for than there are. -/
theorem of_pixel?_eq_none (hbits : IsWidth image.bits) {data : Array UInt8} {row column : Nat}
    (h : image.pixel? image.sampleRanges.toArray data row column = none) :
    ∃ space, image.space = some space ∧ ¬ space.Consistent := by
  rw [pixel?, values?_eq hbits, Option.bind_some] at h
  unfold shade? at h
  split at h
  · rename_i space hspace
    refine ⟨space, hspace, fun hconsistent => ?_⟩
    rw [Option.map_eq_none_iff] at h
    exact Option.isSome_iff_ne_none.mp (ColorSpace.isSome_toColor? hconsistent _) h
  · rename_i hspace
    have hone : image.components = 1 := by rw [components, hspace]
    rw [hone] at h
    cases h

theorem div_mod_lt {i width height : Nat} (hi : i < width * height) :
    i / width < height ∧ i % width < width := by
  have hpos : 0 < width := Nat.pos_of_ne_zero (by rintro rfl; rw [Nat.zero_mul] at hi; omega)
  exact ⟨Nat.div_lt_of_lt_mul hi, Nat.mod_lt _ hpos⟩

theorem div_mod_place {row column width : Nat} (hcolumn : column < width) :
    (row * width + column) / width = row ∧ (row * width + column) % width = column := by
  rw [Nat.mul_comm]
  constructor
  · rw [Nat.mul_add_div (Nat.zero_lt_of_lt hcolumn), Nat.div_eq_of_lt hcolumn, Nat.add_zero]
  · rw [Nat.mul_add_mod, Nat.mod_eq_of_lt hcolumn]

theorem decodeSamples_of_le {data : Bytes} (h : image.expected - data.length ≤ paddingLimit) :
    image.decodeSamples data =
      match image.unpack? data.toArray with
      | some rgba => .ok ⟨image.width, image.height, rgba⟩
      | none => .error (.panic .missingComponent) := if_neg (Nat.not_lt.mpr h)

/-- What is read of the data of an image, however much there is of it. -/
structure Decodes (image : Image) (data : Bytes) : Prop where
  /-- Every sample is there, and both ends of its range. -/
  inside : ∀ row column c, c < image.components →
    (∃ n, image.sampleAt? data.toArray row column c = some n) ∧ 2 * c + 1 < image.sampleRanges.length
  /-- Data of which too much is missing is refused. -/
  refused : paddingLimit < image.expected - data.length →
    image.decodeSamples data =
      .error (.decode "image" (.missingSamples image.id.toNat data.length image.expected))
  /-- Other data is as good as that with zeros for what is missing and without what is too much. -/
  completed : image.expected - data.length ≤ paddingLimit →
    image.decodeSamples data = image.decodeSamples (image.completed data)
  /-- It makes the pixels, row by row, if each of them has a colour, and is at fault only where a
  profile has another number of components than the space that stands in for it. -/
  pixels : image.expected - data.length ≤ paddingLimit →
    (∃ rgba, image.decodeSamples data = .ok ⟨image.width, image.height, rgba⟩ ∧
      rgba.size = 4 * (image.width * image.height) ∧
      ∀ row < image.height, ∀ column < image.width,
        image.pixel? image.sampleRanges.toArray data.toArray row column =
          some ((rgba.toList.drop (4 * (row * image.width + column))).take 4)) ∨
    image.decodeSamples data = .error (.panic .missingComponent) ∧
      ∃ space n alternate, image.space = some space ∧
        ColorSpace.Part (.icc n alternate) space ∧ alternate.components ≠ n

theorem decodes (hbits : IsWidth image.bits) (data : Bytes) : image.Decodes data where
  inside row column c hc := by
    have hlength := image.le_length_sampleRanges
    exact ⟨exists_sampleAt? hbits _ row column c, by omega⟩
  refused hmissing := if_pos hmissing
  completed hpadding := by
    have hunpack : image.unpack? (image.completed data).toArray = image.unpack? data.toArray := by
      rw [unpack?_eq, unpack?_eq]
      refine gathered_congr fun i hi => ?_
      obtain ⟨hrow, hcolumn⟩ := div_mod_lt hi
      exact pixel?_completed hbits data hrow hcolumn
    have hcompleted : image.expected - (image.completed data).length ≤ paddingLimit := by
      rw [length_completed]
      omega
    rw [decodeSamples_of_le hpadding, decodeSamples_of_le hcompleted, hunpack]
  pixels hpadding := by
    rw [decodeSamples_of_le hpadding]
    cases hunpack : image.unpack? data.toArray with
    | some rgba =>
      rw [unpack?_eq] at hunpack
      obtain ⟨hsize, hpixel⟩ := gathered_some (fun i pixel => length_pixel?) hunpack
      refine .inl ⟨rgba, rfl, hsize, fun row hrow column hcolumn => ?_⟩
      have hplace : row * image.width + column < image.width * image.height := by
        calc row * image.width + column < (row + 1) * image.width := by
              rw [Nat.succ_mul]; omega
          _ ≤ image.height * image.width := Nat.mul_le_mul_right _ hrow
          _ = image.width * image.height := Nat.mul_comm _ _
      obtain ⟨hrow', hcolumn'⟩ := @div_mod_place row column image.width hcolumn
      have hfound := hpixel _ hplace
      rwa [hrow', hcolumn'] at hfound
    | none =>
      obtain ⟨i, -, hnone⟩ := gathered_none (unpack?_eq image _ ▸ hunpack)
      obtain ⟨space, hspace, hbroken⟩ := of_pixel?_eq_none hbits hnone
      unfold ColorSpace.Consistent at hbroken
      push Not at hbroken
      obtain ⟨n, alternate, hpart, hne⟩ := hbroken
      exact .inr ⟨rfl, space, n, alternate, hspace, hpart, hne⟩

/-- Where three lights stand in for two components, no pixel has a colour. -/
theorem pixel?_two (hbits : IsWidth image.bits) (hspace : image.space = some (.icc 2 .deviceRgb))
    (data : Array UInt8) (row column : Nat) :
    image.pixel? image.sampleRanges.toArray data row column = none := by
  have htwo : image.components = 2 := by rw [components, hspace]; rfl
  rw [pixel?, values?_eq hbits, htwo, Option.bind_some, shade?, hspace]
  rfl

/-- **What images make of their data.** Samples of any width that there is, packed in rows of whole
bytes, are read back, whatever the size of the image and however many components it has. An image that
is read makes of any data what `Decodes` says. If profiles are stood in for in the spaces of all names,
then its pixels lack a component only where three lights stand in for a profile of two components, and
where they do so for the image itself, they always do. -/
theorem decodeSamples_spec (image : Image) :
    (∀ (samples : Nat → Nat → Nat → Nat) (rest : Bytes), IsWidth image.bits →
      ∀ row < image.height, ∀ column < image.width, ∀ c < image.components,
        samples row column c < 2 ^ image.bits →
        image.sampleAt? (image.packed samples ++ rest).toArray row column c =
          some (samples row column c)) ∧
    ∀ (lib : Library) (s : StreamObj) (named : String → Run (Option ColorSpace)) (m : Memory),
      (read lib s named m).1 = .ok (.ok image) →
      (∀ data, image.Decodes data) ∧
      ((∀ name, ColorSpace.ReadsProfiled (named name)) → ∀ data,
        image.decodeSamples data = .error (.panic .missingComponent) →
        ∃ space, image.space = some space ∧ ColorSpace.Part (.icc 2 .deviceRgb) space) ∧
      (image.space = some (.icc 2 .deviceRgb) → ∀ data,
        image.expected - data.length ≤ paddingLimit →
        image.decodeSamples data = .error (.panic .missingComponent)) := by
  constructor
  · intro samples rest hbits row hrow column hcolumn c hc hsample
    exact sampleAt?_packed hbits hsample hrow hcolumn hc rest
  · intro lib s named m hread
    obtain ⟨hwidth, hheight, hbits, hspace⟩ := of_read hread
    refine ⟨decodes hbits, fun hnamed data herror => ?_, fun htwo data hpadding => ?_⟩
    · have hpadding : image.expected - data.length ≤ paddingLimit := by
        by_contra hlt
        cases ((decodes hbits data).refused (Nat.not_le.mp hlt)).symm.trans herror
      rcases (decodes hbits data).pixels hpadding with ⟨rgba, hok, -⟩ |
        ⟨-, space, n, alternate, hsome, hpart, hne⟩
      · cases hok.symm.trans herror
      · have hprofiled : space.Profiled := by
          rcases hspace with hnone | ⟨space', hread, heq⟩
          · cases hnone.symm.trans hsome
          · cases heq.symm.trans hsome
            exact readSpace_profiled hnamed hread
        rcases hprofiled n alternate hpart with heq | ⟨rfl, rfl⟩
        · exact absurd heq hne
        · exact ⟨space, hsome, hpart⟩
    · rcases (decodes hbits data).pixels hpadding with ⟨rgba, -, -, hpixel⟩ | ⟨herror, -⟩
      · cases (pixel?_two hbits htwo _ 0 0).symm.trans (hpixel 0 hheight 0 hwidth)
      · exact herror

/-- A picture of one pixel in a profile of two components that nothing of two stands in for. -/
def duotone : StreamObj where
  dict := [("Width", .num 1), ("Height", .num 1),
    ("ColorSpace", .array [.name "ICCBased", .dict [("N", .num 2)]])]
  data := [0x41, 0x42]
  ref := none

theorem decodeSamples_spec_duotone : ∃ image,
    (read .empty duotone (fun _ => pure none) (.initial .empty 1)).1 = .ok (.ok image) ∧
      image.sampleAt? (image.packed (fun _ _ c => 0x41 + c) ++ []).toArray 0 0 1 = some 0x42 ∧
      image.Decodes duotone.data ∧
      image.decodeSamples duotone.data = .error (.panic .missingComponent) := by
  obtain ⟨image, himage, hspace, hwidth, hheight, hbits⟩ : ∃ image,
      (read .empty duotone (fun _ => pure none) (.initial .empty 1)).1 = .ok (.ok image) ∧
        image.space = some (.icc 2 .deviceRgb) ∧ image.width = 1 ∧ image.height = 1 ∧
        image.bits = 8 := ⟨_, rfl, rfl, rfl, rfl, rfl⟩
  obtain ⟨hpacked, hread⟩ := decodeSamples_spec image
  have hcomponents : image.components = 2 := by rw [components, hspace]; rfl
  have hpadding : image.expected - duotone.data.length ≤ paddingLimit := by
    rw [expected, rowBytes, hwidth, hheight, hbits, hcomponents]
    decide
  have hsample := hpacked (fun _ _ c => 0x41 + c) [] (hbits ▸ by decide) 0 (by omega) 0
    (by omega) 1 (by omega) (by rw [hbits]; decide)
  obtain ⟨hdecodes, -, htwo⟩ := hread .empty duotone (fun _ => pure none) (.initial .empty 1) himage
  exact ⟨image, himage, hsample, hdecodes _, htwo hspace _ hpadding⟩

end PdfScene.Image
