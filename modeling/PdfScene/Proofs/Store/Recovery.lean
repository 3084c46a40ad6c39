import PdfScene.Proofs.Object.Streams
import PdfScene.Proofs.Store.Trailers

/-!
# Recovering the objects of a file

Scanning a file recovers the objects of its definitions, the last definition of a reference winning
(`Layout.file_recovered`). The numbers of the headers must fit a reference, and what stands around the
definitions must not get in between: the preamble is set off from the first header, the trailer holds
neither headers nor other trailers, and nothing behind a word `trailer` ends the program.
`Layout.not_recovered` shows a file for each of these conditions that is read otherwise without it.
-/

set_option autoImplicit false

namespace PdfScene

namespace Scan

namespace Layout

variable (L : Layout)

/-- The library of what is read at the headers, in order. -/
def library : Library := L.collect .empty L.definitions

/-- What the scanner is promised: a definition can be read at every header, none of them a stream of
packed objects, and the trailer names a root that stands for a dictionary. -/
structure Readable : Prop where
  reads : ∀ d after, d :: after <:+ L.definitions → ∃ r o, L.readAt (d :: after) = .ok (r, o) ∧
    streamType? o ≠ some "ObjStm"
  root : ∃ (d : Dict) (root : Obj), Obj.ofBytes L.trailer = .ok (.dict d) ∧
    d.get? "Root" = some root ∧ (L.library.resolve root).dict?.isSome

/-- The numbers of every header fit a reference. -/
def Fits : Prop := ∀ d ∈ L.definitions, d.Fits

/-- The preamble is set off from the first header. -/
def SetOff : Prop := L.preamble.getLast?.all Byte.endsToken = true

/-- No header is seen in the trailer. -/
def Headerless : Prop :=
  Place.Headerless ⟨(L.preamble ++ textOf L.definitions ++ trailerKeyword).reverse, L.trailer⟩

instance : Decidable L.Fits := inferInstanceAs (Decidable (∀ d ∈ L.definitions, d.Fits))

instance : Decidable L.SetOff := inferInstanceAs (Decidable (_ = true))

instance : Decidable L.Headerless := inferInstanceAs (Decidable (Place.Headerless _))

/-- No other trailer in the trailer names a root. -/
def SingleRoot : Prop := ∀ a b, ∀ d : Dict, L.trailer = a ++ trailerKeyword ++ b →
  Obj.ofBytes b = .ok (.dict d) → d.get? "Root" = none

/-- A library of the objects of a layout: its references are those of the headers, and each leads to
what is read at the last header that writes it. -/
structure Recovered (lib : Library) : Prop where
  references : ∀ r, (lib.find? r).isSome ↔ ∃ d ∈ L.definitions, d.Names r
  last : ∀ d after r r' o, d :: after <:+ L.definitions → d.Names r → (∀ d' ∈ after, ¬ d'.Names r) →
    L.readAt (d :: after) = .ok (r', o) → lib.find? r = some o

/-- A layout whose objects are recovered by scanning its bytes. -/
def IsRecovered (inflate : Inflater) : Prop :=
  ∃ lib, file inflate L.bytes = .ok lib ∧ L.Recovered lib

variable {L}

theorem singleRoot_of_clear (h : ¬ trailerKeyword <:+: L.trailer) : L.SingleRoot :=
  fun a b _ hoccurrence _ => absurd ⟨a, b, hoccurrence.symm⟩ h

/-- What is read at a header is the object behind it, under the reference of the header. -/
theorem readAt_cons {d : Written} (hexact : d.Exact) (after : List Written) :
    L.readAt (d :: after) = (Obj.ofBytes (d.content ++ (endKeyword ++ d.afterEnd.bytes ++
      (textOf after ++ (trailerKeyword ++ L.trailer))))).map fun o =>
        (d.ref, o.definedUnder d.ref) := by
  have htext : textOf (d :: after) ++ (trailerKeyword ++ L.trailer) =
      d.bytes ++ (textOf after ++ (trailerKeyword ++ L.trailer)) := by
    simp [textOf]
  rw [readAt, htext, readDefinition_written hexact]

theorem readAt_ref {d : Written} {after : List Written} {r : ObjRef} {o : Obj} (hexact : d.Exact)
    (h : L.readAt (d :: after) = .ok (r, o)) : r = d.ref := by
  rw [readAt_cons hexact] at h
  cases hread : Obj.ofBytes _ with
  | error e =>
    rw [hread] at h
    cases h
  | ok o' =>
    rw [hread] at h
    cases h
    rfl

/-! ## What the headers give -/

section Collecting

variable {ds : List Written} {lib : Library}

/-- At each header of `ds` an object is read under the reference of the header. -/
def Reads (L : Layout) (ds : List Written) : Prop :=
  ∀ d after, d :: after <:+ ds → ∃ o, L.readAt (d :: after) = .ok (d.ref, o)

theorem Reads.tail {d : Written} (h : L.Reads (d :: ds)) : L.Reads ds :=
  fun d' after hsuffix => h d' after (hsuffix.trans (List.suffix_cons d ds))

/-- The references that are found are those of the headers, and those found before. -/
theorem Reads.collect_isSome (h : L.Reads ds) (r : ObjRef) :
    ((L.collect lib ds).find? r).isSome ↔ (∃ d ∈ ds, d.ref = r) ∨ (lib.find? r).isSome := by
  induction ds generalizing lib with
  | nil => simp [collect]
  | cons d ds ih =>
    obtain ⟨o, hread⟩ := h d ds List.suffix_rfl
    rw [collect, hread]
    dsimp only
    rw [ih h.tail, Library.find?_insert]
    by_cases hr : d.ref = r
    · simp [hr]
    · simp [hr]

/-- What has been found under a reference stays while no header writes it. -/
theorem Reads.collect_other (h : L.Reads ds) {r : ObjRef} (hr : ∀ d ∈ ds, d.ref ≠ r) :
    (L.collect lib ds).find? r = lib.find? r := by
  induction ds generalizing lib with
  | nil => rfl
  | cons d ds ih =>
    obtain ⟨hd, hds⟩ := List.forall_mem_cons.mp hr
    obtain ⟨o, hread⟩ := h d ds List.suffix_rfl
    rw [collect, hread]
    dsimp only
    rw [ih h.tail hds, Library.find?_insert, if_neg hd]

/-- **Each reference leads to what is read at the last header that writes it.** -/
theorem Reads.collect_last (h : L.Reads ds) {d : Written} {after : List Written} {o : Obj}
    (hsuffix : d :: after <:+ ds) (hlast : ∀ d' ∈ after, d'.ref ≠ d.ref)
    (hread : L.readAt (d :: after) = .ok (d.ref, o)) : (L.collect lib ds).find? d.ref = some o := by
  induction ds generalizing lib with
  | nil => exact absurd (List.suffix_nil.mp hsuffix) (List.cons_ne_nil d after)
  | cons d' ds ih =>
    rcases List.suffix_cons_iff.mp hsuffix with heq | hsuffix
    · obtain ⟨rfl, rfl⟩ := List.cons.inj heq
      rw [collect, hread]
      dsimp only
      rw [h.tail.collect_other hlast, Library.find?_insert, if_pos rfl]
    · obtain ⟨o', hread'⟩ := h d' ds List.suffix_rfl
      rw [collect, hread']
      exact ih h.tail hsuffix

end Collecting

/-- The library of what is read at the headers is recovered. -/
theorem Readable.recovered (h : L.Readable) (hfits : L.Fits) {lib : Library}
    (hlib : ∀ r, lib.find? r = L.library.find? r) : L.Recovered lib := by
  have hreads : L.Reads L.definitions := by
    intro d after hsuffix
    obtain ⟨r, o, hread, -⟩ := h.reads d after hsuffix
    have hd := hfits d (hsuffix.subset List.mem_cons_self)
    exact ⟨o, readAt_ref hd.exact hread ▸ hread⟩
  have hnames : ∀ d ∈ L.definitions, ∀ r, d.Names r ↔ d.ref = r :=
    fun d hd _ => (hfits d hd).names_iff
  refine ⟨fun r => ?_, fun d after r r' o hsuffix hr hlast hread => ?_⟩
  · rw [hlib, library, hreads.collect_isSome]
    simp only [Library.find?, Library.empty, Std.HashMap.getElem?_empty, Option.isSome_none,
      Bool.false_eq_true, or_false]
    exact exists_congr fun d => and_congr_right fun hd => (hnames d hd r).symm
  · have hmem : ∀ d' ∈ d :: after, d' ∈ L.definitions := fun _ hd' => hsuffix.subset hd'
    have hd := hmem d List.mem_cons_self
    obtain rfl := (hnames d hd r).mp hr
    obtain rfl := readAt_ref (hfits d hd).exact hread
    rw [hlib]
    refine hreads.collect_last hsuffix (fun d' hd' heq => hlast d' hd' ?_) hread
    exact (hnames d' (hmem d' (List.mem_cons_of_mem d hd')) _).mpr heq

/-! ## Scanning a layout -/

/-- The scan finds what is read at the headers, and nothing in the trailer. -/
theorem Readable.definitions_found (h : L.Readable) (hpreamble : L.SetOff)
    (hheaders : L.Headerless) : ∃ f, Scan.definitions ⟨.empty, []⟩ (.start L.bytes) = .ok f ∧
      (∀ r, f.library.find? r = L.library.find? r) ∧ f.packed = [] := by
  have hbefore : (L.preamble.reverse ++ []).head?.all Byte.endsToken = true := by
    rw [List.append_nil, List.head?_reverse]
    exact hpreamble
  obtain ⟨f, before, sep, heq, hplace, hsep, hlib, hpacked⟩ :=
    definitions_eq (f := ⟨.empty, []⟩) .empty h.reads L.preamble_clear hbefore fun _ => rfl
  have hend : Scan.definitions f ⟨before, sep ++ (trailerKeyword ++ L.trailer)⟩ = .ok f := by
    refine definitions_headerless fun a b hoccurrence => ?_
    -- a keyword cannot lie before the end of the word `trailer`
    have htrailer : trailerKeyword = trailerKeyword.dropLast ++ [0x72] := by decide
    have hclear : ¬ keyword <:+: sep ++ trailerKeyword.dropLast := by
      have hkeyword : keyword = [0x6F, 0x62] ++ [0x6A] := by decide
      rw [hkeyword] at hsep ⊢
      exact not_isInfix_append hsep (by decide)
    have hsplit : (sep ++ trailerKeyword.dropLast) ++ 0x72 :: L.trailer = a ++ keyword ++ b := by
      rw [← hoccurrence, htrailer]
      simp
    rcases occurrence_beside (by decide) hsplit with hearlier | ⟨c, ha, hc⟩
    · exact absurd hearlier hclear
    · have hnone := hheaders c b hc
      rw [List.reverse_nil, List.nil_append] at hplace
      dsimp only at hnone
      rw [← hplace, htrailer] at hnone
      rw [ha]
      simpa using hnone
  exact ⟨f, heq.trans hend, hlib, hpacked⟩

/-- **Scanning a file recovers its objects**: the references of the headers, each with what is read
at the last header that writes it. -/
theorem file_recovered (inflate : Inflater) (L : Layout) (h : L.Readable) (hfits : L.Fits)
    (hpreamble : L.SetOff) (hheaders : L.Headerless) (hroots : L.SingleRoot)
    (hunbroken : Unbroken L.bytes) : L.IsRecovered inflate := by
  obtain ⟨found, hfound, hlib, hpacked⟩ := h.definitions_found hpreamble hheaders
  obtain ⟨d, root, hread, hroot, hdict⟩ := h.root
  obtain ⟨trailer, htrailers⟩ :=
    hunbroken.trailers_ok (t := found.library.trailer) (p := .start L.bytes)
  have htrailer : trailer.get? "Root" = some root := by
    refine get?_trailers (u := L.preamble ++ textOf L.definitions) ?_ hread hroot hroots htrailers
    simp [Place.start, bytes]
  unfold IsRecovered
  rw [file_eq hfound hpacked htrailers]
  -- the root of the trailer stands for a dictionary, so that is the catalog
  have hfind : ∀ r, Library.find? { found.library with trailer } r = L.library.find? r := hlib
  have hcatalog : (Library.catalog? { found.library with trailer }).isSome = true := by
    have hresolve := Library.resolve_congr hfind root
    have hnull : (L.library.resolve root).isNull = false := by
      cases hobject : L.library.resolve root with
      | null =>
        rw [hobject] at hdict
        cases hdict
      | _ => rfl
    simp only [Library.catalog?, Library.dict?, Library.get?, htrailer, Option.bind_some, hresolve,
      hnull, Bool.false_eq_true, if_false, hdict]
  exact ⟨_, if_pos hcatalog, h.recovered hfits hfind⟩

end Layout

/-! ## Files of truth values -/

end Scan

/-- The digit one. -/
def Digits.one : Digits := ⟨Bytes.ofAscii "1", by decide, by decide +kernel⟩

def Digits.zero : Digits := ⟨Bytes.ofAscii "0", by decide, by decide +kernel⟩

def Digits.two : Digits := ⟨Bytes.ofAscii "2", by decide, by decide +kernel⟩

/-- The first number past 32 bits. -/
def Digits.large : Digits := ⟨Bytes.ofAscii "4294967296", by decide, by decide +kernel⟩

theorem Digits.exact_one : one.value < 2 ^ 53 := by decide +kernel

theorem Digits.exact_large : large.value < 2 ^ 53 := by decide +kernel

namespace Scan

/-- The definition of a truth value as an object of generation one. -/
def Written.ofBool (number : Digits) (b : Bool) : Written where
  number
  generation := .one
  body := Bytes.ofAscii (if b then "true" else "false")
  afterKeyword := .lf
  afterBody := .lf
  afterEnd := .lf
  body_clear := by cases b <;> decide +kernel

theorem Written.read_ofBool (number : Digits) (b : Bool) (after : Bytes) :
    Obj.ofBytes ((Written.ofBool number b).content ++ after) = .ok (.bool b) := by
  have hscan : Token.scan ((Written.ofBool number b).content ++ after) =
      (.ok (.bool b), 0x0A :: after) := by
    cases b <;> rfl
  have hfirst :
      (Lookahead.ofBytes ((Written.ofBool number b).content ++ after)).first = .bool b := by
    show (Lookahead.nextToken _).1 = _
    rw [Lookahead.nextToken_eq, hscan]
  have hstep : ∀ view : Lookahead, view.first = .bool b →
      Lookahead.step [] view = .done (.ok (.bool b)) view.shift := by
    intro view h
    simp [Lookahead.step, Lookahead.opening, h, Lookahead.settle, Except.mapError]
  rw [Obj.ofBytes, Lookahead.readObject, Lookahead.run_of_done (hstep _ hfirst)]

theorem Written.readDefinition_ofBool (number : Digits) (hexact : number.value < 2 ^ 53) (b : Bool)
    (after : Bytes) : (Lookahead.ofBytes ((Written.ofBool number b).bytes ++ after)).readDefinition.1 =
      .ok ((Written.ofBool number b).ref, .bool b) := by
  rw [readDefinition_written ⟨hexact, Digits.exact_one⟩, Written.read_ofBool]
  rfl

namespace Layout

theorem readAt_ofBool (L : Layout) {number : Digits} (hexact : number.value < 2 ^ 53) (b : Bool)
    (after : List Written) : L.readAt (.ofBool number b :: after) =
      .ok ((Written.ofBool number b).ref, .bool b) := by
  rw [readAt_cons ⟨hexact, Digits.exact_one⟩, Written.read_ofBool]
  rfl

theorem readable_ofBool {L : Layout} {number : Digits} (hexact : number.value < 2 ^ 53)
    (bs : List Bool) (hdefinitions : L.definitions = bs.map (.ofBool number)) {d entries : Dict}
    (hread : Obj.ofBytes L.trailer = .ok (.dict d)) (hroot : d.get? "Root" = some (.dict entries)) :
    L.Readable where
  reads d after h := by
    rw [hdefinitions] at h
    obtain ⟨b, -, rfl⟩ := List.mem_map.mp (h.subset List.mem_cons_self)
    exact ⟨_, _, L.readAt_ofBool hexact b after, nofun⟩
  root := ⟨d, .dict entries, hread, hroot, rfl⟩

/-- A file that defines an object twice. -/
def twice : Layout where
  preamble := Bytes.ofAscii "%PDF-1.7\n"
  definitions := [.ofBool .one false, .ofBool .one true]
  trailer := Bytes.ofAscii "<</Root<</Pages<</Type/Pages>>>>>>"
  preamble_clear := firstLine_clear

theorem twice_readable : twice.Readable :=
  readable_ofBool Digits.exact_one [false, true] rfl (by cbv) rfl

/-- A file with one word `trailer`, behind which a trailer is read. -/
theorem unbroken_of_single {L : Layout} (hreadable : L.Readable)
    (hfront : ¬ trailerKeyword <:+: (L.preamble ++ textOf L.definitions) ++ trailerKeyword.dropLast)
    (hback : ¬ trailerKeyword <:+: L.trailer) : Unbroken L.bytes := by
  obtain ⟨d, -, hread, -⟩ := hreadable.root
  rw [bytes, ← List.append_assoc, ← List.append_assoc]
  exact .cons hfront hread (.of_clear hback)

theorem file_recovered_twice : twice.Readable ∧ twice.Fits ∧ twice.SetOff ∧ twice.Headerless ∧
    twice.SingleRoot ∧ Unbroken twice.bytes ∧ twice.IsRecovered .none := by
  have hfits : twice.Fits := by decide +kernel
  have hpreamble : twice.SetOff := by decide +kernel
  have hheaders : twice.Headerless := by decide +kernel
  have hroots : twice.SingleRoot := singleRoot_of_clear (by decide +kernel)
  have hunbroken := unbroken_of_single twice_readable (by decide +kernel) (by decide +kernel)
  exact ⟨twice_readable, hfits, hpreamble, hheaders, hroots, hunbroken,
    file_recovered .none twice twice_readable hfits hpreamble hheaders hroots hunbroken⟩

/-! ## Files that are read otherwise -/

/-- The definition of a truth value is found in a file without other headers. -/
theorem definitions_ofBool (sep after : Bytes) (number : Digits) (b : Bool)
    (hexact : number.value < 2 ^ 53) (hsep : ¬ keyword <:+: sep)
    (hbefore : (sep.reverse ++ []).head?.all Byte.endsToken = true)
    (hafter : Place.Headerless ⟨(sep ++ (Written.ofBool number b).header ++ keyword ++
      (Written.ofBool number b).content ++ endKeyword).reverse ++ [], 0x0A :: after⟩) :
    Scan.definitions ⟨.empty, []⟩ (.start (sep ++ ((Written.ofBool number b).bytes ++ after))) =
      .ok (Found.add ⟨.empty, []⟩ (Written.ofBool number b).ref (.bool b)) := by
  rw [Place.start, definitions_written hsep hbefore
    (Written.readDefinition_ofBool number hexact b after)]
  exact definitions_headerless hafter

/-- A reference that is found but is in no header is one too many. -/
theorem not_isRecovered_of_found {L : Layout} {inflate : Inflater} {r : ObjRef} {b : Bool}
    (hfound : Scan.definitions ⟨.empty, []⟩ (.start L.bytes) = .ok (Found.add ⟨.empty, []⟩ r (.bool b)))
    (hr : ∀ d ∈ L.definitions, ¬ d.Names r) : ¬ L.IsRecovered inflate := by
  rintro ⟨lib, hfile, hrecovered⟩
  have hsome : (lib.find? r).isSome = true := by
    rw [file_find? hfound rfl hfile, Found.find?_add, if_pos rfl]
    rfl
  obtain ⟨d, hd, hnames⟩ := (hrecovered.references r).mp hsome
  exact hr d hd hnames

variable (inflate : Inflater)

/-- A file with a number past 32 bits. -/
def oversized : Layout where
  preamble := []
  definitions := [.ofBool .large true]
  trailer := Bytes.ofAscii "<</Root<</Pages<</Type/Pages>>>>>>"
  preamble_clear := by decide +kernel

theorem oversized_readable : oversized.Readable :=
  readable_ofBool Digits.exact_large [true] rfl (by cbv) rfl

/-- The number past 32 bits is found as the last one of 32 bits. -/
theorem definitions_oversized : Scan.definitions ⟨.empty, []⟩ (.start oversized.bytes) =
    .ok (Found.add ⟨.empty, []⟩ (Written.ofBool .large true).ref (.bool true)) := by
  have hbytes : oversized.bytes = [] ++ ((Written.ofBool .large true).bytes ++
      (trailerKeyword ++ oversized.trailer)) := by
    simp [oversized, bytes, textOf]
  rw [hbytes]
  exact definitions_ofBool [] (trailerKeyword ++ oversized.trailer) .large true
    Digits.exact_large (by decide) rfl (by decide +kernel)

theorem oversized_not_recovered : ¬ oversized.IsRecovered inflate := by
  refine not_isRecovered_of_found definitions_oversized fun d hd hnames => ?_
  obtain rfl := List.mem_singleton.mp hd
  exact absurd hnames.1 (by decide +kernel)

/-- A file whose first header is not set off from the preamble. -/
def glued : Layout where
  preamble := Bytes.ofAscii "x"
  definitions := [.ofBool .one true]
  trailer := Bytes.ofAscii "<</Root<</Pages<</Type/Pages>>>>>>"
  preamble_clear := by decide +kernel

theorem glued_readable : glued.Readable :=
  readable_ofBool Digits.exact_one [true] rfl (by cbv) rfl

theorem glued_not_recovered : ¬ glued.IsRecovered inflate := by
  rintro ⟨lib, hfile, hrecovered⟩
  have hfound : Scan.definitions ⟨.empty, []⟩ (.start glued.bytes) = .ok ⟨.empty, []⟩ :=
    definitions_headerless (by decide +kernel)
  have hsome := (hrecovered.references ⟨1, 1⟩).mpr
    ⟨_, List.mem_cons_self, by decide +kernel, by decide +kernel⟩
  rw [file_find? hfound rfl hfile] at hsome
  simp [Library.find?, Library.empty] at hsome

/-- A file with a definition in a string of the trailer. -/
def noted : Layout where
  preamble := []
  definitions := []
  trailer := Bytes.ofAscii "<</Root<</Pages<</Type/Pages>>>>/Note(" ++
    ((Written.ofBool .one true).bytes ++ Bytes.ofAscii ")>>")
  preamble_clear := by decide +kernel

theorem noted_readable : noted.Readable :=
  readable_ofBool Digits.exact_one [] rfl (by cbv) rfl

theorem noted_not_recovered : ¬ noted.IsRecovered inflate := by
  obtain ⟨sep, hsep⟩ : ∃ sep, sep = trailerKeyword ++
      Bytes.ofAscii "<</Root<</Pages<</Type/Pages>>>>/Note(" := ⟨_, rfl⟩
  have hbytes : noted.bytes =
      sep ++ ((Written.ofBool .one true).bytes ++ Bytes.ofAscii ")>>") := by
    simp [noted, bytes, textOf, hsep]
  have hfound := definitions_ofBool sep (Bytes.ofAscii ")>>") .one true Digits.exact_one
    (hsep ▸ by decide +kernel) (hsep ▸ by decide +kernel) (hsep ▸ by decide +kernel)
  rw [← hbytes] at hfound
  exact not_isRecovered_of_found hfound fun d hd _ => List.not_mem_nil hd

/-- A file with a trailer in a string of the trailer. -/
def overridden : Layout where
  preamble := []
  definitions := []
  trailer := Bytes.ofAscii "<</Root<</Pages<</Type/Pages>>>>/Note(trailer<</Root/None>>)>>"
  preamble_clear := by decide +kernel

theorem overridden_readable : overridden.Readable :=
  readable_ofBool Digits.exact_one [] rfl (by cbv) rfl

theorem read_overriding : Obj.ofBytes (Bytes.ofAscii "<</Root/None>>)>>") =
    .ok (.dict [("Root", .name "None")]) := by
  cbv

theorem overridden_unbroken : Unbroken overridden.bytes := by
  have hbytes : overridden.trailer = Bytes.ofAscii "<</Root<</Pages<</Type/Pages>>>>/Note(" ++
      trailerKeyword ++ Bytes.ofAscii "<</Root/None>>)>>" := by
    decide +kernel
  obtain ⟨d, -, hread, -⟩ := overridden_readable.root
  have hlater : Unbroken overridden.trailer :=
    hbytes ▸ .cons (by decide +kernel) read_overriding (.of_clear (by decide +kernel))
  exact .cons (a := []) (by decide) hread hlater

theorem overridden_not_recovered : ¬ overridden.IsRecovered inflate := by
  rintro ⟨lib, hfile, -⟩
  have hfound : Scan.definitions ⟨.empty, []⟩ (.start overridden.bytes) = .ok ⟨.empty, []⟩ :=
    definitions_headerless (by decide +kernel)
  obtain ⟨trailer, htrailers⟩ :=
    overridden_unbroken.trailers_ok (t := []) (p := .start overridden.bytes)
  have hroot : trailer.get? "Root" = some (.name "None") :=
    get?_trailers_clear (u := trailerKeyword ++
      Bytes.ofAscii "<</Root<</Pages<</Type/Pages>>>>/Note(") (by decide +kernel) read_overriding rfl
      (by decide +kernel) htrailers
  have herror : file inflate overridden.bytes = .error (.missing .catalog) :=
    file_eq_error hfound rfl htrailers rfl
    (by simp [Library.catalog?, Library.dict?, Library.get?, Library.empty, hroot, Library.resolve,
      Library.resolveWithin, Library.referenceLimit, Obj.isNull, Obj.dict?])
    (by simp [firstCatalog?, Library.empty, Std.HashMap.fold_eq_foldl_toList])
  rw [herror] at hfile
  cases hfile

/-- A file with a stream behind a word `trailer` that there can be no room for. -/
def roomless : Layout where
  preamble := Bytes.ofAscii "trailer<</Length 99999999999999999999 >>stream\n"
  definitions := [.ofBool .one true]
  trailer := Bytes.ofAscii "<</Root<</Pages<</Type/Pages>>>>>>"
  preamble_clear := by decide +kernel

theorem roomless_readable : roomless.Readable :=
  readable_ofBool Digits.exact_one [true] rfl (by cbv) rfl

theorem roomless_not_recovered : ¬ roomless.IsRecovered inflate := by
  rintro ⟨lib, hfile, -⟩
  obtain ⟨found, trailer, -, -, htrailers, -⟩ := file_eq_ok hfile
  obtain ⟨rest, hrest⟩ : ∃ rest, rest = textOf roomless.definitions ++
    (trailerKeyword ++ roomless.trailer) := ⟨_, rfl⟩
  have hbytes : roomless.bytes = [] ++ trailerKeyword ++
      (Bytes.ofAscii "<</Length 99999999999999999999 >>" ++
        ([] ++ (Lookahead.streamKeyword ++ ([0x0A] ++ rest)))) := by
    rw [hrest]
    decide +kernel
  have hlength : Lookahead.statedLength [("Length", .num Lookahead.twentyNines)] =
      some 0xFFFFFFFFFFFFFFFF := by
    decide +kernel
  have hread : Obj.ofBytes (Bytes.ofAscii "<</Length 99999999999999999999 >>" ++
      ([] ++ (Lookahead.streamKeyword ++ ([0x0A] ++ rest)))) = .error (.panic .capacityOverflow) := by
    have hsource := Lookahead.DictSource.length Lookahead.nextToken_twentyNines
    have hgap : Token.skipBlanks false ([] ++ Lookahead.streamKeyword) = Lookahead.streamKeyword := by
      rfl
    have hbehind := hsource.readObject_behind hgap .lf rest
    rw [Lookahead.readBody, StreamBody.scan_of_not_hasRoom (by rw [hlength]; rfl)] at hbehind
    exact congrArg Prod.fst hbehind
  rw [Place.start, hbytes, trailers_eq_error (by decide) hread] at htrailers
  cases htrailers

/-- **None of the conditions can be left out.** -/
theorem not_recovered :
    (oversized.Readable ∧ oversized.SetOff ∧ oversized.Headerless ∧ oversized.SingleRoot ∧
      Unbroken oversized.bytes ∧ ∀ inflate, ¬ oversized.IsRecovered inflate) ∧
    (glued.Readable ∧ glued.Fits ∧ glued.Headerless ∧ glued.SingleRoot ∧
      Unbroken glued.bytes ∧ ∀ inflate, ¬ glued.IsRecovered inflate) ∧
    (noted.Readable ∧ noted.Fits ∧ noted.SetOff ∧ noted.SingleRoot ∧
      Unbroken noted.bytes ∧ ∀ inflate, ¬ noted.IsRecovered inflate) ∧
    (overridden.Readable ∧ overridden.Fits ∧ overridden.SetOff ∧ overridden.Headerless ∧
      Unbroken overridden.bytes ∧ ∀ inflate, ¬ overridden.IsRecovered inflate) ∧
    (roomless.Readable ∧ roomless.Fits ∧ roomless.SetOff ∧ roomless.Headerless ∧
      roomless.SingleRoot ∧ ∀ inflate, ¬ roomless.IsRecovered inflate) := by
  have hroots : oversized.SingleRoot ∧ glued.SingleRoot ∧ noted.SingleRoot ∧ roomless.SingleRoot :=
    ⟨singleRoot_of_clear (by decide +kernel), singleRoot_of_clear (by decide +kernel),
      singleRoot_of_clear (by decide +kernel), singleRoot_of_clear (by decide +kernel)⟩
  have hunbroken : Unbroken oversized.bytes ∧ Unbroken glued.bytes ∧ Unbroken noted.bytes :=
    ⟨unbroken_of_single oversized_readable (by decide +kernel) (by decide +kernel),
      unbroken_of_single glued_readable (by decide +kernel) (by decide +kernel),
      unbroken_of_single noted_readable (by decide +kernel) (by decide +kernel)⟩
  refine ⟨⟨oversized_readable, ?_, ?_, hroots.1, hunbroken.1, oversized_not_recovered⟩,
    ⟨glued_readable, ?_, ?_, hroots.2.1, hunbroken.2.1, glued_not_recovered⟩,
    ⟨noted_readable, ?_, ?_, hroots.2.2.1, hunbroken.2.2, noted_not_recovered⟩,
    ⟨overridden_readable, ?_, ?_, ?_, overridden_unbroken, overridden_not_recovered⟩,
    ⟨roomless_readable, ?_, ?_, ?_, hroots.2.2.2, roomless_not_recovered⟩⟩ <;> decide +kernel

end Layout

end Scan

end PdfScene
