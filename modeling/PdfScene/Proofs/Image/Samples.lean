import Mathlib
import PdfScene.Image.Pixels
import PdfScene.Proofs.Filter.Bits

/-!
# Samples in their rows

Samples of one, two, four, eight or sixteen bits are packed most significant bit first, and each row
starts with a byte of its own (`Image.packed`). A sample is then the number that its bits write
(`Image.sample?_eq`), and samples that have been packed are read back by row, column and component
(`Image.sampleAt?_packed`). Reading stays within the bytes that the samples take; bytes that are not
there read as zero, so data may be cut to that length or filled up to it (`Image.sampleAt?_completed`).
-/

set_option autoImplicit false

namespace PdfScene.Image

/-! ## Samples in a row of bits -/

/-- How many bits a sample may have. -/
def IsWidth (bits : Nat) : Prop := bits = 1 ∨ bits = 2 ∨ bits = 4 ∨ bits = 8 ∨ bits = 16

instance : DecidablePred IsWidth := fun bits =>
  inferInstanceAs (Decidable (bits = 1 ∨ bits = 2 ∨ bits = 4 ∨ bits = 8 ∨ bits = 16))

/-- A sample that starts behind whole samples stands within a byte, or is two of them. -/
theorem IsWidth.fits {bits bit : Nat} (h : IsWidth bits) (hbit : bits ∣ bit) :
    bits = 16 ∧ bit % 8 = 0 ∨ bits + bit % 8 ≤ 8 := by
  obtain ⟨k, rfl⟩ := hbit
  rcases h with rfl | rfl | rfl | rfl | rfl <;> omega

theorem IsWidth.pos {bits : Nat} (h : IsWidth bits) : 0 < bits := by
  rcases h with rfl | rfl | rfl | rfl | rfl <;> decide

/-- **A sample is the number that its bits write.** -/
theorem sample?_eq {data : Bytes} {before after : List Bool} {row bit bits n : Nat}
    (hbits : IsWidth bits) (hbit : bits ∣ bit) (hn : n < 2 ^ bits)
    (hdata : Bits.ofBytes data = before ++ (Bits.ofNat bits n ++ after))
    (hbefore : before.length = 8 * row + bit) : sample? data.toArray row bit bits = some n := by
  have hbyte : ∀ i, data.toArray.getD i 0 = data.getD i 0 := fun i => by simp
  have hlength := Bits.length_ofNat bits n
  have hne : Bits.ofNat bits n ≠ [] := List.ne_nil_of_length_pos (hbits.pos.trans_eq hlength.symm)
  unfold sample?
  dsimp only
  simp only [hbyte]
  rcases hbits.fits hbit with ⟨rfl, hwhole⟩ | hwithin
  · have hvalue := Bits.value_two_bytes hdata (i := row + bit / 8) (by omega) hlength
    rw [Bits.value_ofNat hn, Nat.add_assoc] at hvalue
    rw [if_neg (by decide), if_pos rfl, hvalue]
  · have hvalue := Bits.value_within hdata hne (i := row + bit / 8) (by omega)
      (by rw [hlength]; omega)
    rw [hlength, Bits.value_ofNat hn,
      show 8 * (row + bit / 8 + 1) - before.length - bits = 8 - bits - bit % 8 by omega] at hvalue
    split_ifs with hfull hdouble
    · rw [← hvalue, hfull, show 8 - 8 - bit % 8 = 0 by omega, Nat.pow_zero, Nat.div_one]
      exact congrArg some (Nat.mod_eq_of_lt (UInt8.toNat_lt _)).symm
    · omega
    · exact congrArg some hvalue

/-! ## Samples that are packed -/

/-- Pieces of one length: the one at a place stands behind as many as the place says. -/
theorem flatMap_range_split {α : Type} (f : Nat → List α) {length n i : Nat}
    (hlength : ∀ i, (f i).length = length) (hi : i < n) : ∃ before after,
    (List.range n).flatMap f = before ++ (f i ++ after) ∧ before.length = i * length := by
  obtain ⟨k, rfl⟩ : ∃ k, n = i + (k + 1) := ⟨n - i - 1, by omega⟩
  have hsplit : (List.range (i + (k + 1))).flatMap f =
      (List.range i).flatMap f ++ (f i ++ (((List.range k).map (· + 1)).map (i + ·)).flatMap f) := by
    rw [List.range_add, List.flatMap_append, List.range_succ_eq_map, List.map_cons,
      List.flatMap_cons, Nat.add_zero]
  refine ⟨_, _, hsplit, ?_⟩
  rw [List.length_flatMap, List.map_congr_left fun j _ => hlength j]
  simp

/-- The bits of the samples of a row, the pixels one after another. -/
def rowBits (image : Image) (samples : Nat → Nat → Nat) : List Bool :=
  (List.range image.width).flatMap fun column =>
    (List.range image.components).flatMap fun c => Bits.ofNat image.bits (samples column c)

/-- Samples by row, column and component, packed: each row starts with a byte of its own. -/
def packed (image : Image) (samples : Nat → Nat → Nat → Nat) : Bytes :=
  (List.range image.height).flatMap fun row => Bits.pack (image.rowBits (samples row))

variable {image : Image}

theorem length_pixelBits (samples : Nat → Nat → Nat) (column : Nat) :
    ((List.range image.components).flatMap fun c =>
      Bits.ofNat image.bits (samples column c)).length = image.components * image.bits := by
  simp [List.length_flatMap]

theorem length_packedRow (samples : Nat → Nat → Nat) :
    (Bits.pack (image.rowBits samples)).length = image.rowBytes := by
  simp [Bits.length_pack, rowBits, List.length_flatMap, rowBytes]

/-- **Packed samples are read back**, whatever stands behind them. -/
theorem sampleAt?_packed (hbits : IsWidth image.bits) {samples : Nat → Nat → Nat → Nat}
    {row column c : Nat} (hsample : samples row column c < 2 ^ image.bits)
    (hrow : row < image.height) (hcolumn : column < image.width) (hc : c < image.components)
    (rest : Bytes) : image.sampleAt? (image.packed samples ++ rest).toArray row column c =
      some (samples row column c) := by
  -- the sample in its pixel, the pixel in its row, and the row in the data
  obtain ⟨components, components', hpixel, hcomponents⟩ := flatMap_range_split
    (fun c => Bits.ofNat image.bits (samples row column c)) (fun _ => Bits.length_ofNat _ _) hc
  obtain ⟨pixels, pixels', hbitsRow, hpixels⟩ := flatMap_range_split
    (fun column => (List.range image.components).flatMap fun c =>
      Bits.ofNat image.bits (samples row column c)) (length_pixelBits (samples row)) hcolumn
  obtain ⟨rows, rows', hpacked, hrows⟩ := flatMap_range_split
    (fun row => Bits.pack (image.rowBits (samples row))) (fun row => length_packedRow (samples row))
    hrow
  obtain ⟨room, hroom⟩ := Bits.ofBytes_pack (image.rowBits (samples row))
  have hrowBits : image.rowBits (samples row) = pixels ++ (components ++
      (Bits.ofNat image.bits (samples row column c) ++ components') ++ pixels') := by
    rw [← hpixel]
    exact hbitsRow
  have hdata : Bits.ofBytes (image.packed samples ++ rest) =
      (Bits.ofBytes rows ++ (pixels ++ components)) ++
        (Bits.ofNat image.bits (samples row column c) ++ (components' ++ (pixels' ++
          (List.replicate room false ++ Bits.ofBytes (rows' ++ rest))))) := by
    have hwhole : image.packed samples = rows ++ (Bits.pack (image.rowBits (samples row)) ++ rows') :=
      hpacked
    rw [hwhole]
    simp only [Bits.ofBytes_append, hroom]
    rw [hrowBits]
    simp only [List.append_assoc]
  refine sample?_eq hbits (Dvd.intro_left _ rfl) hsample hdata ?_
  rw [List.length_append, List.length_append, Bits.length_ofBytes, hrows, hpixels, hcomponents]
  ring

/-- No sample of a width that there is runs on from its byte into the next. -/
theorem exists_sampleAt? (hbits : IsWidth image.bits) (data : Array UInt8) (row column c : Nat) :
    ∃ n, image.sampleAt? data row column c = some n := by
  unfold sampleAt? sample?
  dsimp only
  split_ifs with hfull hdouble hwithin
  · exact ⟨_, rfl⟩
  · exact ⟨_, rfl⟩
  · exact ⟨_, rfl⟩
  · rcases hbits.fits (Dvd.intro_left (column * image.components + c) rfl) with ⟨heq, -⟩ | hle
    · exact absurd heq hdouble
    · exact absurd hle hwithin

/-! ## Data that ends early or late -/

/-- How many bytes the samples take. -/
def expected (image : Image) : Nat := image.rowBytes * image.height

/-- Data that is completed with zeros or cut, so that there are as many bytes as the samples take. -/
def completed (image : Image) (data : Bytes) : Bytes :=
  (data ++ List.replicate (image.expected - data.length) 0).take image.expected

theorem length_completed (data : Bytes) : (image.completed data).length = image.expected := by
  rw [completed, List.length_take, List.length_append, List.length_replicate]
  omega

theorem getD_completed (data : Bytes) {i : Nat} (hi : i < image.expected) :
    (image.completed data).toArray.getD i 0 = data.toArray.getD i 0 := by
  simp only [Array.getD_eq_getD_getElem?, List.getElem?_toArray, completed,
    List.getElem?_take_of_lt hi]
  by_cases hdata : i < data.length
  · rw [List.getElem?_append_left hdata]
  · rw [List.getElem?_append_right (by omega), List.getElem?_replicate,
      List.getElem?_eq_none (by omega), if_pos (by omega)]
    rfl

/-- A sample lies within its row. -/
theorem sample_le_rowBytes {column c : Nat} (hcolumn : column < image.width)
    (hc : c < image.components) :
    (column * image.components + c) * image.bits + image.bits ≤ 8 * image.rowBytes := by
  have hnext : column * image.components + c + 1 ≤ image.width * image.components := by
    calc column * image.components + c + 1 ≤ (column + 1) * image.components := by
          rw [Nat.succ_mul]; omega
      _ ≤ image.width * image.components := Nat.mul_le_mul_right _ hcolumn
  have hbits := Nat.mul_le_mul_right image.bits hnext
  rw [Nat.succ_mul, Nat.mul_assoc image.width] at hbits
  unfold rowBytes
  omega

/-- No sample is read from what stands behind the expected bytes, and what is missing reads as zero. -/
theorem sampleAt?_completed (hbits : IsWidth image.bits) (data : Bytes) {row column c : Nat}
    (hrow : row < image.height) (hcolumn : column < image.width) (hc : c < image.components) :
    image.sampleAt? (image.completed data).toArray row column c =
      image.sampleAt? data.toArray row column c := by
  have hend := sample_le_rowBytes hcolumn hc
  have hfits := hbits.fits (Dvd.intro_left (column * image.components + c) rfl)
  have hbyte : ∀ i < image.rowBytes, (image.completed data).toArray.getD
      (row * image.rowBytes + i) 0 = data.toArray.getD (row * image.rowBytes + i) 0 := by
    intro i hi
    apply getD_completed
    have hrows := Nat.mul_le_mul_right image.rowBytes hrow
    rw [Nat.succ_mul] at hrows
    rw [expected, Nat.mul_comm image.rowBytes]
    omega
  have hpos := hbits.pos
  unfold sampleAt? sample?
  dsimp only
  generalize (column * image.components + c) * image.bits = bit at hend hfits
  rw [hbyte (bit / 8) (by omega)]
  split_ifs with hfull hdouble
  · rfl
  · rw [hbyte (bit / 8 + 1) (by omega)]
  · rfl
  · rfl

end PdfScene.Image
