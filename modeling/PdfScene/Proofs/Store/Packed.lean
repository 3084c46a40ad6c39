import PdfScene.Proofs.Object.Measures
import PdfScene.Proofs.Store.Places

/-!
# Packed objects

A later definition of a reference replaces an earlier one, but it does not do so between packed
objects: those are taken in after all plain definitions, each where nothing is defined yet, so the
stream that packs an object first keeps it (`file_find?_packed`). An update that packs an object anew
is not seen.
-/

set_option autoImplicit false

namespace PdfScene

namespace Scan

/-- **What a reference leads to in a file.** Of the plain definitions the last one counts, and packed
objects count only where there is none; of those it is the one in the first stream that packs an
object under the reference. -/
theorem file_find?_packed {inflate : Inflater} {bytes : Bytes} {lib : Library}
    (h : file inflate bytes = .ok lib) : ∃ c : Contents, c.Of bytes ∧ ∀ r,
      lib.find? r = (c.plain.reverse.lookup r).or
        (c.packing.findSome? fun s => (s.packed inflate).lookup r) := by
  obtain ⟨c, unpacked, hof, hunpacked, hrooted⟩ := file_eq_ok_iff.mp h
  refine ⟨c, hof, fun r => ?_⟩
  rw [find?_of_rooted hrooted, c.find?_unpacked hunpacked]

/-! ## An object that is packed twice -/

/-- The entries of a stream of one packed object that starts four bytes in. -/
def packingMeasures : List Measure :=
  [⟨Bytes.ofAscii "/N", "N", .single 1 (by decide), by decide,
      fun _ => by rw [Lookahead.nextToken_eq]; cbv⟩,
    ⟨Bytes.ofAscii "/First", "First", .single 4 (by decide), by decide,
      fun _ => by rw [Lookahead.nextToken_eq]; cbv⟩]

/-- The definition of a stream that packs a truth value as object nine. -/
def Written.packing (number : Digits) (b : Bool) : Written where
  number
  generation := .single 0 (by decide)
  body := Bytes.ofAscii "<</Type/ObjStm" ++ (Measure.textOf packingMeasures ++
    (Lookahead.streamStart ++ Bytes.ofAscii (if b then "9 0 true\nendstream" else "9 0 false\nendstream")))
  afterKeyword := .lf
  afterBody := .lf
  afterEnd := .lf
  body_clear := by cases b <;> decide +kernel

/-- The stream that it defines. -/
def packingStream (ref : Option ObjRef) (b : Bool) : StreamObj where
  dict := Measure.insertAll [("Type", .name "ObjStm")] packingMeasures
  data := Bytes.ofAscii (if b then "9 0 true" else "9 0 false")
  ref := ref

theorem read_packing (number : Digits) (b : Bool) (after : Bytes) :
    Obj.ofBytes ((Written.packing number b).content ++ after) = .ok (packingStream none b).toObj := by
  obtain ⟨tail, htail⟩ : ∃ tail, tail = Bytes.ofAscii (if b then "9 0 true\nendstream"
    else "9 0 false\nendstream") ++ (0x0A :: after) := ⟨_, rfl⟩
  obtain ⟨entries, hentries⟩ : ∃ entries, entries =
    Measure.textOf packingMeasures ++ (Lookahead.streamStart ++ tail) := ⟨_, rfl⟩
  have hcontent : (Written.packing number b).content ++ after =
      0x0A :: (Bytes.ofAscii "<<" ++
        (Bytes.ofAscii "/Type" ++ (Bytes.ofAscii "/ObjStm" ++ entries))) := by
    rw [hentries, htail]
    simp only [Written.content, Written.packing, LineEnd.bytes, List.append_assoc]
    rfl
  have hkey : Lookahead.nextToken (Bytes.ofAscii "/Type" ++ (Bytes.ofAscii "/ObjStm" ++ entries)) =
      (.name "Type", Bytes.ofAscii "/ObjStm" ++ entries) := by
    rw [Lookahead.nextToken_eq]
    cbv
  -- the name ends with the slash of the first measure
  have hvalue : Lookahead.nextToken (Bytes.ofAscii "/ObjStm" ++ entries) =
      (.name "ObjStm", entries) := by
    obtain ⟨rest, hrest⟩ : ∃ rest, entries = 0x2F :: rest := ⟨_, hentries⟩
    rw [hrest, Lookahead.nextToken_eq]
    cbv
  have hview : Lookahead.ofBytes (Bytes.ofAscii "/Type" ++ (Bytes.ofAscii "/ObjStm" ++ entries)) =
      ⟨.name "Type", .name "ObjStm", entries⟩ := by
    simp only [Lookahead.ofBytes, hkey, hvalue]
  have hentry : Lookahead.step [.dict []] ⟨.name "Type", .name "ObjStm", entries⟩ =
      .more [.entry [] "Type"] ⟨.name "ObjStm", (Lookahead.nextToken entries).1,
        (Lookahead.nextToken entries).2⟩ := rfl
  have hinsert : Lookahead.step [.entry [] "Type"] ⟨.name "ObjStm", (Lookahead.nextToken entries).1,
      (Lookahead.nextToken entries).2⟩ =
      .more [.dict [("Type", .name "ObjStm")]] (Lookahead.ofBytes entries) := rfl
  have hlength : Lookahead.statedLength (packingStream none b).dict = none := rfl
  have hbody : (StreamBody.body none (0x0A :: tail)).1 = (packingStream none b).data := by
    rw [htail]
    cases b <;> rfl
  rw [Lookahead.ofBytes_eq_run, hcontent, (Lookahead.leads_dictStart _).run_eq, hview,
    Lookahead.run_of_more hentry, Lookahead.run_of_more hinsert, hentries,
    Lookahead.run_stream packingMeasures [("Type", .name "ObjStm")] tail rfl]
  show Except.ok (Obj.stream _ (StreamBody.body (Lookahead.statedLength (packingStream none b).dict)
    (0x0A :: tail)).1 none) = _
  rw [hlength, hbody]
  rfl

/-- Its header has the number nine, and zero for where that object starts. -/
theorem packedAt_packing (data : Bytes) {first : Nat} (hfirst : Bytes.wrap first = first) :
    packedAt data first (.ofBytes (Bytes.ofAscii "9 0 ")) 1 =
      ((outcome? (Obj.ofBytes (data.drop first))).map fun o => Except.ok (⟨9, 0⟩, o)).toList := by
  have hheader : Lookahead.ofBytes (Bytes.ofAscii "9 0 ") =
      ⟨.num (Whole.double 9), .num (Whole.double 0), [0x20]⟩ :=
    Lookahead.ofBytes_digits (.single 9 (by decide)) (.single 0 (by decide)) (by decide) (by decide) []
  have hend : Lookahead.nextToken [0x20] = (.eof, []) := by
    rw [Lookahead.nextToken_eq]
    rfl
  have hnumber : Lookahead.step [] ⟨.num (Whole.double 9), .num (Whole.double 0), [0x20]⟩ =
      .done (.ok (.num (Whole.double 9))) ⟨.num (Whole.double 0), .eof, []⟩ := by
    simp [Lookahead.step, Lookahead.opening, Lookahead.shift, hend, Lookahead.number,
      Lookahead.settle, Except.mapError]
  have hoffset : Lookahead.step [] ⟨.num (Whole.double 0), .eof, []⟩ =
      .done (.ok (.num (Whole.double 0))) ⟨.eof, (Lookahead.nextToken []).1,
        (Lookahead.nextToken []).2⟩ := by
    simp [Lookahead.step, Lookahead.opening, Lookahead.shift, Lookahead.number, Lookahead.settle,
      Except.mapError]
  have hentry : readEntry (.ofBytes (Bytes.ofAscii "9 0 ")) =
      (.ok (some (Whole.double 9, Whole.double 0)), ⟨.eof, (Lookahead.nextToken []).1,
        (Lookahead.nextToken []).2⟩) := by
    rw [readEntry, hheader, Lookahead.readObject, Lookahead.run_of_done hnumber]
    dsimp only
    rw [Lookahead.readObject, Lookahead.run_of_done hoffset]
  have hnine : (Whole.double 9).toUInt32 = 9 := Whole.toUInt32_double (by decide)
  have hzero : (Whole.double 0).toUInt64.toNat = 0 := Whole.toUInt64_double (by decide)
  rw [packedAt, hentry]
  dsimp only
  rw [hnine, hzero, Nat.add_zero, hfirst]
  simp [packedAt]

/-- It packs the truth value under the number nine. -/
theorem unpacked_packing (inflate : Inflater) (ref : Option ObjRef) (b : Bool) :
    (packingStream ref b).unpacked inflate = [.ok (⟨9, 0⟩, .ok (.bool b))] := by
  have hcount : ((packingStream ref b).dict.get? "N").bind Obj.int? = some 1 :=
    congrArg some (Whole.floatToInt_double (by decide))
  have hfirst : ((packingStream ref b).dict.get? "First").bind Obj.int? = some 4 :=
    congrArg some (Whole.floatToInt_double (by decide))
  have hdecode : (packingStream ref b).decode inflate = .ok ⟨(packingStream ref b).data, none⟩ := rfl
  have hheader : (packingStream ref b).data.take 4 = Bytes.ofAscii "9 0 " := by
    cases b <;> rfl
  have hobject : Obj.ofBytes ((packingStream ref b).data.drop 4) = .ok (.bool b) := by
    cases b with
    | true =>
      show Obj.ofBytes (Bytes.ofAscii "true") = _
      cbv
    | false =>
      show Obj.ofBytes (Bytes.ofAscii "false") = _
      cbv
  unfold StreamObj.unpacked
  dsimp only
  rw [hcount, hfirst, hdecode]
  dsimp only [Option.getD_some, outcome?]
  rw [if_neg (by decide)]
  show packedAt _ 4 (.ofBytes ((packingStream ref b).data.take 4)) 1 = _
  rw [hheader, packedAt_packing _ (by decide), hobject]
  rfl

/-- A file that packs an object twice. -/
def packedTwice : Layout where
  preamble := Bytes.ofAscii "%PDF-1.7\n"
  definitions := [.packing (.single 1 (by decide)) true, .packing (.single 2 (by decide)) false]
  trailer := Bytes.ofAscii "<</Root<</Pages<</Type/Pages>>>>>>"
  preamble_clear := firstLine_clear

theorem read_written_packing (number : Digits) (hexact : number.value < 2 ^ 53) (b : Bool)
    (after : Bytes) : (Lookahead.ofBytes ((Written.packing number b).bytes ++ after)).readDefinition.1 =
      .ok ((Written.packing number b).ref,
        (packingStream (some (Written.packing number b).ref) b).toObj) := by
  have hzero : (Written.packing number b).generation.value < 2 ^ 53 := (by decide : 0 < 2 ^ 53)
  rw [readDefinition_written ⟨hexact, hzero⟩, read_packing]
  rfl

/-- What the file contains. -/
def packedTwiceContents : Contents :=
  ⟨[(⟨1, 0⟩, (packingStream (some ⟨1, 0⟩) true).toObj),
    (⟨2, 0⟩, (packingStream (some ⟨2, 0⟩) false).toObj)],
    [[("Root", .dict [("Pages", .dict [("Type", .name "Pages")])])]]⟩

theorem read_packedTwice_trailer : Obj.ofBytes packedTwice.trailer =
    .ok (.dict [("Root", .dict [("Pages", .dict [("Type", .name "Pages")])])]) := by
  cbv

theorem defined_packedTwice : (Place.start packedTwice.bytes).defined =
    packedTwiceContents.plain.map .ok := by
  obtain ⟨first, hfirst⟩ : ∃ first, first = Written.packing (.single 1 (by decide)) true := ⟨_, rfl⟩
  obtain ⟨second, hsecond⟩ : ∃ second, second = Written.packing (.single 2 (by decide)) false :=
    ⟨_, rfl⟩
  have hbytes : packedTwice.bytes = packedTwice.preamble ++ (first.bytes ++ (second.bytes ++
      (trailerKeyword ++ packedTwice.trailer))) := by
    simp [Layout.bytes, textOf, packedTwice, hfirst, hsecond]
  have hread₁ := read_written_packing (.single 1 (by decide)) (by decide) true
    (second.bytes ++ (trailerKeyword ++ packedTwice.trailer))
  have hread₂ := read_written_packing (.single 2 (by decide)) (by decide) false
    (trailerKeyword ++ packedTwice.trailer)
  rw [← hfirst] at hread₁
  rw [← hsecond] at hread₂
  show Place.defined ⟨[], packedTwice.bytes⟩ = _
  rw [hbytes, Place.defined_written packedTwice.preamble_clear (by decide +kernel) hread₁,
    Place.defined_written (hfirst ▸ by decide +kernel) (hfirst ▸ by decide +kernel) hread₂,
    Place.Headerless.defined (hfirst ▸ hsecond ▸ by decide +kernel), hfirst, hsecond]
  rfl

theorem packedTwice_of : packedTwiceContents.Of packedTwice.bytes := by
  refine ⟨defined_packedTwice, ?_⟩
  have hbytes : packedTwice.bytes =
      packedTwice.preamble ++ textOf packedTwice.definitions ++ trailerKeyword ++
        packedTwice.trailer := by
    simp [Layout.bytes]
  rw [Place.start, hbytes, Place.trailers_cons (by decide +kernel) read_packedTwice_trailer,
    Place.trailers_of_clear (by decide +kernel)]
  rfl

theorem packing_packedTwice : packedTwiceContents.packing =
    [packingStream (some ⟨1, 0⟩) true, packingStream (some ⟨2, 0⟩) false] := rfl

theorem file_find?_packedTwice : ∃ lib, file .none packedTwice.bytes = .ok lib ∧
    lib.find? ⟨9, 0⟩ = some (.bool true) := by
  have hbytes : packedTwice.bytes =
      packedTwice.preamble ++ textOf packedTwice.definitions ++ trailerKeyword ++
        packedTwice.trailer := by
    simp [Layout.bytes]
  obtain ⟨unpacked, hunpacked⟩ : ∃ unpacked,
      unpackAll .none packedTwiceContents.library packedTwiceContents.packing = .ok unpacked := by
    have hnew : packedTwiceContents.library.find? ⟨9, 0⟩ = none := by
      rw [Contents.find?_library]
      simp [packedTwiceContents, Library.lookup_cons]
    rw [unpackAll_eq, packing_packedTwice]
    simp [unpacked_packing, Library.insertNew, hnew, Library.find?_insert, Except.map, bind,
      Except.bind, pure, Except.pure]
  have hfile : file .none packedTwice.bytes = .ok unpacked :=
    file_ok_of_root packedTwice_of hunpacked hbytes read_packedTwice_trailer rfl (by decide +kernel)
  refine ⟨unpacked, hfile, ?_⟩
  obtain ⟨c, hof, hfind⟩ := file_find?_packed hfile
  rw [hof.eq packedTwice_of] at hfind
  rw [hfind, packing_packedTwice]
  simp [packedTwiceContents, StreamObj.packed, unpacked_packing, Packed.object?, Library.lookup_cons]

end Scan

end PdfScene
