import PdfScene.Error
import PdfScene.Object.Basic

/-!
# Predictors

Before compression, samples may be replaced by their differences from neighbours. Undoing that is a
run over rows: a PNG row opens with a byte that says which neighbours were used (the sample to the
left, the one above, their mean, or the nearest of three), and a TIFF row always uses the left one.
Rows before the first, and samples left of a row, are zero.

The bits of a row are counted in a machine word, so that a row that asks for too many of them may be
left with none. TIFF data cannot be cut into such rows. Memory for a row is taken to be there.
-/

set_option autoImplicit false

namespace PdfScene.Predictor

/-- What a stream's parameters say about prediction. -/
structure Params where
  predictor : Int
  colors : Nat
  bits : Nat
  columns : Nat

namespace Params

/-- The parameters in a dictionary, each brought into the range that can be used. -/
def ofDict (parms : Dict) : Params :=
  let int (key : String) (default : Int) : Int :=
    ((parms.get? key).bind Obj.int?).getD default
  { predictor := int "Predictor" 1
    colors := (max 1 (min 32 (int "Colors" 1))).toNat
    bits := (max 1 (min 16 (int "BitsPerComponent" 8))).toNat
    columns := (max 1 (int "Columns" 1)).toNat }

/-- How many bytes to the left the neighbour is. -/
def pixelBytes (p : Params) : Nat := (p.colors * p.bits + 7) / 8

def rowBytes (p : Params) : Nat := (Bytes.wrap (p.colors * p.bits * p.columns) + 7) / 8

end Params

/-- The neighbour nearest to the sum of two less the third, the first of those that tie. -/
def paeth (left up upLeft : UInt8) : UInt8 :=
  let p : Int := left.toNat + up.toNat - upLeft.toNat
  let dl := (p - left.toNat).natAbs
  let du := (p - up.toNat).natAbs
  let dul := (p - upLeft.toNat).natAbs
  if dl ≤ du ∧ dl ≤ dul then left else if du ≤ dul then up else upLeft

/-- What a row of kind `kind` predicts from three neighbours. -/
def predict (kind left up upLeft : UInt8) : UInt8 :=
  if kind == 1 then left
  else if kind == 2 then up
  else if kind == 3 then UInt8.ofNat ((left.toNat + up.toNat) / 2)
  else if kind == 4 then paeth left up upLeft
  else 0

/-- Undoes one row from a place within it: `done` and `above` are the samples before that place, in
this row and the one above, nearest first. -/
def undoRow (kind : UInt8) (pixel : Nat) (done above : Bytes) : List (UInt8 × UInt8) → Bytes
  | [] => done.reverse
  | (x, up) :: rest =>
    let left := done.getD (pixel - 1) 0
    let upLeft := above.getD (pixel - 1) 0
    undoRow kind pixel ((x + predict kind left up upLeft) :: done) (up :: above) rest

/-- Cuts data into pieces of `n + 1` bytes, the last of which may be short. -/
def pieces (n : Nat) (data : Bytes) : List Bytes :=
  match data with
  | [] => []
  | b :: rest => (b :: rest.take n) :: pieces n (rest.drop n)
termination_by data.length
decreasing_by simp only [List.length_drop, List.length_cons]; omega

/-- Undoes PNG prediction row by row, starting below the row `above`. A short row is filled with
zeros. -/
def undoPng (p : Params) (above : Bytes) (done : Array UInt8) : List Bytes → Array UInt8
  | [] => done
  | [] :: rows => undoPng p above done rows
  | (kind :: encoded) :: rows =>
    let filled := encoded ++ List.replicate (p.rowBytes - encoded.length) 0
    let row := undoRow kind p.pixelBytes [] [] (filled.zip above)
    undoPng p row (done ++ row.toArray) rows

/-- Undoes TIFF prediction of a row: each sample is the sum of itself and the one to its left. -/
def undoTiffRow (pixel : Nat) (done : Bytes) : Bytes → Bytes
  | [] => done.reverse
  | x :: rest => undoTiffRow pixel ((x + done.getD (pixel - 1) 0) :: done) rest

/-- Undoes TIFF prediction, which is known for samples of eight bits only. -/
def undoTiff (p : Params) (data : Bytes) : Except Error Bytes :=
  if p.bits ≠ 8 then .ok data
  else if p.rowBytes = 0 then .error (.panic .emptyRows)
  else .ok ((pieces (p.rowBytes - 1) data).flatMap (undoTiffRow p.pixelBytes []))

/-- Undoes the prediction that a stream's parameters name. -/
def undo (parms : Option Dict) (data : Bytes) : Except Error Bytes :=
  match parms with
  | none => .ok data
  | some parms =>
    let p := Params.ofDict parms
    if p.predictor ≤ 1 then .ok data
    else if p.predictor = 2 then undoTiff p data
    else if 10 ≤ p.predictor ∧ p.predictor ≤ 15 then
      .ok (undoPng p (List.replicate p.rowBytes 0) #[] (pieces p.rowBytes data)).toList
    else .error (.decode "FlateDecode" (.unknownPredictor p.predictor))

end PdfScene.Predictor
