import Mathlib
import PdfScene.Filter.Predictor

/-!
# Predicting samples

What a predictor does to samples before they are compressed: each byte of a row is replaced by its
difference from what its neighbours predict. In PNG data every row says for itself how it was
predicted, by a byte in front of it; TIFF data has one way for all rows. Neighbours are counted in
bytes, as many as a pixel takes up at the least, so with small samples the byte to the left may hold
several pixels.

Undoing a prediction gives the rows back (`undo_predicted`), as long as the bits of a row can be
counted. Without rows there are none to count, but TIFF data is cut into rows all the same, and that
is the end of the program if their bits come out as none. The reader keeps what it has undone with
the nearest byte in front, where the neighbours of a place are counted from the start of the row; that
the two agree is `getD_reverse`, and with it a row is undone byte by byte (`undoRow_differences`).
-/

set_option autoImplicit false

namespace PdfScene.Predictor

/-! ## Predicting rows -/

/-- A way to predict the bytes of a PNG row. -/
inductive Kind where
  | none
  | sub
  | up
  | average
  | paeth
  deriving DecidableEq, Repr

namespace Kind

/-- The byte in front of a row that is predicted this way. -/
def byte : Kind → UInt8
  | none => 0
  | sub => 1
  | up => 2
  | average => 3
  | paeth => 4

/-- What three neighbours predict. The last way takes the neighbour that is nearest to the sum of two
less the third, of those that are equally near the first in this order. -/
def predict : Kind → UInt8 → UInt8 → UInt8 → UInt8
  | none, _, _, _ => 0
  | sub, left, _, _ => left
  | up, _, above, _ => above
  | average, left, above, _ => UInt8.ofNat ((left.toNat + above.toNat) / 2)
  | paeth, left, above, corner =>
    ([left, above, corner].argmin fun b =>
      ((left.toNat + above.toNat - corner.toNat : Int) - b.toNat).natAbs).getD 0

end Kind

/-- The byte `distance` places to the left of a place in a row: zero where the row has not begun. -/
def neighbour (distance : Nat) (row : Bytes) (i : Nat) : UInt8 :=
  if distance ≤ i then row.getD (i - distance) 0 else 0

/-- The differences of the bytes of a row from what is predicted for them. -/
def differences (kind : Kind) (distance : Nat) (above row : Bytes) : Bytes :=
  row.mapIdx fun i b =>
    b - kind.predict (neighbour distance row i) (above.getD i 0) (neighbour distance above i)

/-- Rows as PNG data, the first one below the row `above`. -/
def pngRows (distance : Nat) : Bytes → List (Kind × Bytes) → List Bytes
  | _, [] => []
  | above, (kind, row) :: rows =>
    (kind.byte :: differences kind distance above row) :: pngRows distance row rows

/-- A row as TIFF data: each byte is replaced by its difference from the one to its left. -/
def tiffRow (distance : Nat) (row : Bytes) : Bytes :=
  row.mapIdx fun i b => b - neighbour distance row i

/-- How far to the left the neighbour of a byte is. -/
def distance (colors bits : Nat) : Nat := colors * bits ⌈/⌉ 8

/-- How many bytes a row has. -/
def rowLength (colors bits columns : Nat) : Nat := colors * bits * columns ⌈/⌉ 8

/-- Rows as PNG data, with a row of zeros above the first. -/
def png (colors bits columns : Nat) (rows : List (Kind × Bytes)) : Bytes :=
  (pngRows (distance colors bits) (List.replicate (rowLength colors bits columns) 0) rows).flatten

/-- Rows of samples of eight bits as TIFF data. -/
def tiff (colors : Nat) (rows : List Bytes) : Bytes :=
  (rows.map (tiffRow (distance colors 8))).flatten

/-! ## What is predicted -/

/-- Of three that are compared in order, the first that no other is less than. -/
theorem argmin_three {α : Type} (f : α → Nat) (a b c : α) :
    [a, b, c].argmin f =
      some (if f a ≤ f b ∧ f a ≤ f c then a else if f b ≤ f c then b else c) := by
  simp only [List.argmin, List.foldl_cons, List.foldl_nil, List.argAux, ← not_lt]
  by_cases hba : f b < f a
  · by_cases hcb : f c < f b <;> simp [hba, hcb]
  · by_cases hca : f c < f a
    · have hcb : f c < f b := by omega
      simp [hba, hca, hcb]
    · simp [hba, hca]

theorem paeth_eq (left above corner : UInt8) :
    paeth left above corner = Kind.paeth.predict left above corner := by
  rw [Kind.predict, argmin_three]
  rfl

theorem predict_byte (kind : Kind) (left above corner : UInt8) :
    predict kind.byte left above corner = kind.predict left above corner := by
  cases kind with
  | paeth => exact paeth_eq left above corner
  | _ => rfl

/-! ## Undoing a row -/

section Undoing

variable {distance : Nat}

/-- What is done is kept with the nearest byte in front. -/
theorem getD_reverse (hdistance : 0 < distance) (front back : Bytes) :
    front.reverse.getD (distance - 1) 0 = neighbour distance (front ++ back) front.length := by
  unfold neighbour
  split
  · rename_i h
    rw [List.getD_eq_getElem?_getD, List.getD_eq_getElem?_getD,
      List.getElem?_reverse (by omega), List.getElem?_append_left (by omega)]
    congr 2
    omega
  · rename_i h
    exact List.getD_eq_default _ _ (by rw [List.length_reverse]; omega)

/-- Undoing goes on from any place of a row to its end. -/
theorem undoRow_mapIdx (kind : Kind) (hdistance : 0 < distance) (row above : Bytes)
    (back aboveBack front aboveFront : Bytes) (hrow : front ++ back = row)
    (habove : aboveFront ++ aboveBack = above) (hfront : aboveFront.length = front.length)
    (hback : aboveBack.length = back.length) :
    undoRow kind.byte distance front.reverse aboveFront.reverse
      ((back.mapIdx fun i b =>
        b - kind.predict (neighbour distance row (front.length + i)) (above.getD (front.length + i) 0)
          (neighbour distance above (front.length + i))).zip aboveBack) = row := by
  induction back generalizing aboveBack front aboveFront with
  | nil =>
    rw [List.append_nil] at hrow
    rw [List.mapIdx_nil, List.zip_nil_left, undoRow, List.reverse_reverse, hrow]
  | cons b back ih =>
    obtain ⟨u, aboveBack, rfl⟩ := List.exists_cons_of_length_eq_add_one hback
    have hleft := getD_reverse hdistance front (b :: back)
    have hcorner := getD_reverse hdistance aboveFront (u :: aboveBack)
    rw [hrow] at hleft
    rw [habove, hfront] at hcorner
    have hup : above.getD front.length 0 = u := by
      rw [← habove, ← hfront]
      simp
    have hnext := ih aboveBack (front ++ [b]) (aboveFront ++ [u]) (by simpa using hrow)
      (by simpa using habove) (by simpa using hfront) (by simpa using hback)
    rw [List.mapIdx_cons, List.zip_cons_cons, undoRow, hleft, hcorner, predict_byte]
    simp only [Nat.add_zero, hup, UInt8.sub_add_cancel]
    simpa [Nat.add_assoc, Nat.add_comm 1] using hnext

/-- **A row is got back from its differences.** -/
theorem undoRow_differences (kind : Kind) (hdistance : 0 < distance) {above row : Bytes}
    (hlength : above.length = row.length) :
    undoRow kind.byte distance [] [] ((differences kind distance above row).zip above) = row := by
  have h := undoRow_mapIdx kind hdistance row above row above [] [] rfl rfl rfl hlength
  simpa only [differences, List.reverse_nil, List.length_nil, Nat.zero_add] using h

/-- The left neighbour is what a PNG row may be predicted by as well, whatever is above it. -/
theorem undoTiffRow_eq_undoRow (done above : Bytes) {ups row : Bytes} (h : ups.length = row.length) :
    undoTiffRow distance done row = undoRow Kind.sub.byte distance done above (row.zip ups) := by
  induction row generalizing done above ups with
  | nil => rfl
  | cons b row ih =>
    obtain ⟨u, ups, rfl⟩ := List.exists_cons_of_length_eq_add_one h
    exact ih _ _ (Nat.succ.inj h)

theorem undoTiffRow_tiffRow (hdistance : 0 < distance) (row : Bytes) :
    undoTiffRow distance [] (tiffRow distance row) = row := by
  have hlength : (List.replicate row.length (0 : UInt8)).length = row.length := List.length_replicate
  have htiff : (tiffRow distance row).length = row.length := List.length_mapIdx
  rw [undoTiffRow_eq_undoRow [] [] (hlength.trans htiff.symm)]
  exact undoRow_differences .sub hdistance hlength

/-! ## Undoing rows -/

/-- Rows that are all of one length are cut apart where they were put together. -/
theorem pieces_flatten {n : Nat} {rows : List Bytes} (h : ∀ row ∈ rows, row.length = n + 1) :
    pieces n rows.flatten = rows := by
  induction rows with
  | nil => rw [List.flatten_nil, pieces]
  | cons row rows ih =>
    rw [List.forall_mem_cons] at h
    obtain ⟨b, row, rfl⟩ := List.exists_cons_of_length_eq_add_one h.1
    have hlength : row.length = n := Nat.succ.inj h.1
    rw [List.flatten_cons, List.cons_append, pieces, ← hlength, List.take_left, List.drop_left,
      hlength, ih h.2]

theorem length_of_mem_pngRows (distance : Nat) (above : Bytes) {n : Nat} {rows : List (Kind × Bytes)}
    (h : ∀ row ∈ rows, row.2.length = n) : ∀ row ∈ pngRows distance above rows, row.length = n + 1 := by
  induction rows generalizing above with
  | nil => exact fun _ hrow => absurd hrow List.not_mem_nil
  | cons first rows ih =>
    rw [List.forall_mem_cons] at h
    rw [pngRows, List.forall_mem_cons]
    exact ⟨by rw [List.length_cons, differences, List.length_mapIdx, h.1], ih _ h.2⟩

/-- **PNG rows are got back one below the other.** -/
theorem undoPng_pngRows {p : Params} (hpixel : 0 < p.pixelBytes) {above : Bytes} {done : Array UInt8}
    {rows : List (Kind × Bytes)} (habove : above.length = p.rowBytes)
    (h : ∀ row ∈ rows, row.2.length = p.rowBytes) :
    undoPng p above done (pngRows p.pixelBytes above rows) =
      done ++ (rows.flatMap Prod.snd).toArray := by
  induction rows generalizing above done with
  | nil => simp [pngRows, undoPng]
  | cons row rows ih =>
    obtain ⟨kind, row⟩ := row
    rw [List.forall_mem_cons] at h
    have hfull : p.rowBytes - (differences kind p.pixelBytes above row).length = 0 := by
      rw [differences, List.length_mapIdx, h.1, Nat.sub_self]
    rw [pngRows, undoPng, hfull, List.replicate_zero, List.append_nil,
      undoRow_differences kind hpixel (habove.trans h.1.symm)]
    dsimp only
    rw [ih h.1 h.2]
    simp

end Undoing

/-! ## Parameters -/

/-- The values of a stream's parameters, as its dictionary has them. What is absent has the value that
it has by default. -/
structure Params.StatedIn (p : Params) (parms : Dict) : Prop where
  predictor : ((parms.get? "Predictor").bind Obj.int?).getD 1 = p.predictor
  colors : ((parms.get? "Colors").bind Obj.int?).getD 1 = p.colors
  bits : ((parms.get? "BitsPerComponent").bind Obj.int?).getD 8 = p.bits
  columns : ((parms.get? "Columns").bind Obj.int?).getD 1 = p.columns

/-- The bits of a row can be counted in a machine word. -/
abbrev Params.Countable (p : Params) : Prop := p.colors * p.bits * p.columns < 0x10000000000000000

/-- Values that parameters may have. -/
structure Params.Allowed (p : Params) : Prop where
  colors : 1 ≤ p.colors ∧ p.colors ≤ 32
  bits : p.bits ∈ [1, 2, 4, 8, 16]
  columns : 1 ≤ p.columns

namespace Params.Allowed

variable {p : Params} {parms : Dict} (h : p.Allowed)

include h

theorem bits_le : 1 ≤ p.bits ∧ p.bits ≤ 16 := by
  have hbits := h.bits
  simp only [List.mem_cons, List.not_mem_nil, or_false] at hbits
  omega

/-- Values that are allowed are read as they are stated. -/
theorem ofDict_eq (hstated : p.StatedIn parms) : ofDict parms = p := by
  have hcolors := h.colors
  have hbits := h.bits_le
  have hcolumns := h.columns
  unfold ofDict
  simp only [hstated.predictor, hstated.colors, hstated.bits, hstated.columns]
  rw [show (max 1 (min 32 (p.colors : Int))).toNat = p.colors by omega,
    show (max 1 (min 16 (p.bits : Int))).toNat = p.bits by omega,
    show (max 1 (p.columns : Int)).toNat = p.columns by omega]

theorem pixelBytes_pos : 0 < p.pixelBytes := by
  have hsamples := Nat.mul_pos h.colors.1 h.bits_le.1
  unfold pixelBytes
  omega

end Params.Allowed

theorem ceilDiv_eight (n : Nat) : n ⌈/⌉ 8 = (n + 7) / 8 := Nat.ceilDiv_eq_add_pred_div n 8

theorem Params.pixelBytes_eq (p : Params) : distance p.colors p.bits = p.pixelBytes :=
  ceilDiv_eight _

theorem Params.Countable.rowBytes_eq {p : Params} (h : p.Countable) :
    rowLength p.colors p.bits p.columns = p.rowBytes := by
  rw [Params.rowBytes, Bytes.wrap, Nat.mod_eq_of_lt h]
  exact ceilDiv_eight _

/-- A row is left with no bytes if the count of its bits starts again at zero. -/
theorem Params.rowBytes_eq_zero_iff (p : Params) :
    p.rowBytes = 0 ↔ 0x10000000000000000 ∣ p.colors * p.bits * p.columns := by
  rw [Nat.dvd_iff_mod_eq_zero, Params.rowBytes, Bytes.wrap]
  omega

/-- No rows are nothing to undo, whatever their length. -/
theorem undoPng_nil (p : Params) (above : Bytes) (n : Nat) :
    undoPng p above #[] (pieces n []) = #[] := by
  rw [pieces, undoPng]

/-- **Undoing a prediction gives the rows back**: those of PNG data, however each of them was predicted,
and those of TIFF data, if samples have eight bits. If there are rows, their bits have to be
countable. TIFF data ends the program exactly if the count starts again at zero. -/
theorem undo_predicted {p : Params} {parms : Dict} (h : p.Allowed) (hstated : p.StatedIn parms) :
    (10 ≤ p.predictor ∧ p.predictor ≤ 15 → ∀ rows : List (Kind × Bytes),
      (rows ≠ [] → p.Countable) →
      (∀ row ∈ rows, row.2.length = rowLength p.colors p.bits p.columns) →
      undo (some parms) (png p.colors p.bits p.columns rows) = .ok (rows.flatMap Prod.snd)) ∧
    (p.predictor = 2 ∧ p.bits = 8 →
      (∀ data, undo (some parms) data = .error (.panic .emptyRows) ↔
        0x10000000000000000 ∣ p.colors * 8 * p.columns) ∧
      ∀ rows : List Bytes, (rows ≠ [] → p.Countable) →
        ¬ 0x10000000000000000 ∣ p.colors * 8 * p.columns →
        (∀ row ∈ rows, row.length = rowLength p.colors 8 p.columns) →
        undo (some parms) (tiff p.colors rows) = .ok rows.flatten) := by
  constructor
  · intro hpredictor rows hcount hrows
    rw [undo, h.ofDict_eq hstated, if_neg (by omega), if_neg (by omega), if_pos hpredictor]
    cases rows with
    | nil =>
      simp only [png, pngRows, List.flatten_nil, undoPng_nil]
      rfl
    | cons first rest =>
      have hbytes := (hcount (List.cons_ne_nil _ _)).rowBytes_eq
      rw [hbytes] at hrows
      have hlength := length_of_mem_pngRows p.pixelBytes (List.replicate p.rowBytes 0) hrows
      rw [png, p.pixelBytes_eq, hbytes, pieces_flatten hlength,
        undoPng_pngRows h.pixelBytes_pos List.length_replicate hrows]
      simp
  · rintro ⟨hpredictor, hbits⟩
    have hundo : ∀ data, undo (some parms) data = undoTiff p data := fun data => by
      rw [undo, h.ofDict_eq hstated, if_neg (by omega), if_pos hpredictor]
    have hzero := p.rowBytes_eq_zero_iff
    rw [hbits] at hzero
    refine ⟨fun data => ?_, fun rows hcount hfull hrows => ?_⟩
    · rw [hundo, undoTiff, if_neg (by omega), ← hzero]
      split
      · exact iff_of_true rfl ‹_›
      · exact iff_of_false nofun ‹_›
    · have hpos : p.rowBytes ≠ 0 := fun h0 => hfull (hzero.mp h0)
      have hlength : ∀ row ∈ rows.map (tiffRow p.pixelBytes), row.length = p.rowBytes - 1 + 1 := by
        intro row hrow
        obtain ⟨row, hmem, rfl⟩ := List.mem_map.mp hrow
        have hbytes := (hcount (List.ne_nil_of_mem hmem)).rowBytes_eq
        rw [hbits] at hbytes
        rw [tiffRow, List.length_mapIdx, hrows row hmem, hbytes]
        omega
      rw [hundo, undoTiff, if_neg (by omega), if_neg hpos, tiff, ← hbits, p.pixelBytes_eq,
        pieces_flatten hlength, List.flatMap_map]
      simp only [undoTiffRow_tiffRow h.pixelBytes_pos, List.flatMap_id']

/-- Two rows of two pixels of three bytes, predicted in two ways, and rows of so many pixels that none
of their bits are counted. -/
theorem undo_predicted_twice :
    let p : Params := ⟨12, 3, 8, 2⟩
    let parms : Dict := [("Predictor", .num 12), ("Colors", .num 3), ("Columns", .num 2)]
    let rows : List (Kind × Bytes) :=
      [(.average, [10, 20, 30, 255, 0, 7]), (.paeth, [11, 19, 200, 3, 128, 64])]
    let q : Params := ⟨2, 1, 8, 2305843009213693952⟩
    let parms' : Dict := [("Predictor", .num 2), ("Columns", .num 2305843009213693952)]
    p.Allowed ∧ p.StatedIn parms ∧ (10 ≤ p.predictor ∧ p.predictor ≤ 15) ∧ p.Countable ∧
      (∀ row ∈ rows, row.2.length = rowLength p.colors p.bits p.columns) ∧
      undo (some parms) (png 3 8 2 rows) = .ok (rows.flatMap Prod.snd) ∧
      q.Allowed ∧ q.StatedIn parms' ∧
      undo (some parms') (tiff 1 []) = .error (.panic .emptyRows) := by
  intro p parms rows q parms'
  have hallowed : p.Allowed := ⟨by decide, by decide, by decide⟩
  have hstated : p.StatedIn parms :=
    ⟨by decide +kernel, by decide +kernel, by decide +kernel, by decide +kernel⟩
  have hpredictor : 10 ≤ p.predictor ∧ p.predictor ≤ 15 := by decide
  have hcount : p.Countable := by decide
  have hrows : ∀ row ∈ rows, row.2.length = rowLength p.colors p.bits p.columns := by decide
  have hallowed' : q.Allowed := ⟨by decide, by decide, by decide⟩
  have hstated' : q.StatedIn parms' :=
    ⟨by decide +kernel, by decide +kernel, by decide +kernel, by decide +kernel⟩
  exact ⟨hallowed, hstated, hpredictor, hcount, hrows,
    (undo_predicted hallowed hstated).1 hpredictor rows (fun _ => hcount) hrows, hallowed',
    hstated', (((undo_predicted hallowed' hstated').2 ⟨rfl, rfl⟩).1 _).mpr (by decide)⟩

end PdfScene.Predictor
