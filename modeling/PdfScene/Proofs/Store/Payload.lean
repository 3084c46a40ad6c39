import PdfScene.Proofs.Object.Measures
import PdfScene.Proofs.Store.Catalog
import PdfScene.Proofs.Store.Recovery
import PdfScene.Proofs.Store.Slot

/-!
# The data of a stream is opaque

With other data in one of its streams a file is read as the same library, but for that data, where
the scan passes over the data (`Slot.file_sameButData`). Where it does not, the data can bring in
definitions and trailers of its own or get into other objects: `Slot.leaks_uncontained` has a file for
each of the conditions.
-/

set_option autoImplicit false

namespace PdfScene.Scan.Slot

variable {S : Slot} {body body' : Bytes} {r r' : ObjRef} {d d' : Dict}

/-! ## The library of the file -/

/-- Objects that are packed, or trailers, come from no stream without such a type. -/
theorem Holds.typed?_eq (h : S.Holds body r d) :
    typed? "ObjStm" (.stream d body (some r)) = none ∧
      typed? "XRef" (.stream d body (some r)) = none := by
  have hnone : ∀ type : String, (d.get? "Type").bind Obj.name? ≠ some type →
      typed? type (.stream d body (some r)) = none := by
    intro type hne
    simp [typed?, Obj.stream?, Option.filter, hne]
  exact ⟨hnone _ h.untyped.1, hnone _ h.untyped.2⟩

/-- **The data of a stream is opaque where the scan passes over it**: with other data the file is
read as the same library, but for that data. -/
theorem file_sameButData {inflate : Inflater} (h : S.Holds body r d) (h' : S.Holds body' r' d')
    (hc : S.Contained body) (hc' : S.Contained body') {lib : Library}
    (hfile : file inflate (S.bytes body) = .ok lib) :
    ∃ lib', file inflate (S.bytes body') = .ok lib' ∧ lib.SameButData r d body body' lib' := by
  obtain ⟨rfl, rfl⟩ := h.same h'
  obtain ⟨⟨plain, trailers⟩, unpacked, hof, hunpacked, hrooted⟩ := file_eq_ok_iff.mp hfile
  obtain ⟨l₁, l₂, rfl, hof'⟩ := contents h h' hc hc' hof
  have hpacking : Contents.packing ⟨l₁ ++ (r, .stream d body (some r)) :: l₂, trailers⟩ =
      Contents.packing ⟨l₁ ++ (r, .stream d body' (some r)) :: l₂, trailers⟩ := by
    simp only [Contents.packing, List.filterMap_append, List.filterMap_cons, h.typed?_eq.1,
      h'.typed?_eq.1]
  have hsame : (Contents.library ⟨l₁ ++ (r, .stream d body (some r)) :: l₂, trailers⟩).SameButData
      r d body body' (Contents.library ⟨l₁ ++ (r, .stream d body' (some r)) :: l₂, trailers⟩) := by
    refine ⟨?_, fun q => ?_⟩
    · simp only [Contents.library, Contents.trailer, List.filterMap_append, List.filterMap_cons,
        h.typed?_eq.2, h'.typed?_eq.2]
    · rw [Contents.find?_library, Contents.find?_library]
      simp only [List.reverse_append, List.reverse_cons, List.lookup_append, Library.lookup_cons]
      cases l₂.reverse.lookup q with
      | some o => exact .inl rfl
      | none =>
        by_cases hq : r = q
        · subst hq
          simp
        · simp [hq]
  rw [unpackAll_eq, hpacking] at hunpacked
  obtain ⟨unpacked', hunpacked', hlater⟩ := hsame.foldlM_insertNew hunpacked
  obtain ⟨lib', hlib', hresult⟩ := rooted_sameButData hlater hrooted
  rw [← unpackAll_eq] at hunpacked'
  exact ⟨lib', file_eq_ok_iff.mpr ⟨_, unpacked', hof', hunpacked', hlib'⟩, hresult⟩

/-! ## Files with room for 27 bytes -/

theorem find?_first (h : ¬ keyword <:+: S.before ++ keyword.dropLast) (body : Bytes) :
    Place.find? keyword [] (S.bytes body) = some (S.place body) := by
  have hfind := Place.find?_eq_some [] (S.opening ++ S.tail body) (by decide) h
  rw [List.append_nil] at hfind
  exact hfind

theorem closed_of_clear {passed rest : Bytes} (hafter : S.after = passed ++ endKeyword ++ rest)
    (h : ¬ endKeyword <:+: (S.opening ++ body ++ passed) ++ endKeyword.dropLast) : S.Closed body := by
  have hplace : (S.place body).after = (S.opening ++ body ++ passed) ++ endKeyword ++ rest := by
    simp [place, tail, hafter]
  refine ⟨_, hplace ▸ Place.find?_eq_some _ rest (by decide) h, ?_⟩
  rw [hafter]
  simp only [List.length_append]
  omega

theorem definitionsBefore_of_first (h : ¬ keyword <:+: S.before ++ keyword.dropLast) (body : Bytes) :
    S.DefinitionsBefore body := by
  intro q hq hlt
  rw [Place.start, Place.keywords_of_find? (find?_first h body)] at hq
  -- it is the stream or something behind it
  rcases List.mem_cons.mp hq with rfl | hq
  · omega
  · have hle := Place.next_length_le (S.place body)
    have := Place.length_lt_of_mem_words (by decide) hq
    omega

theorem trailersBeside_of_clear
    (h : ¬ trailerKeyword <:+: S.before ++ keyword ++ S.opening ++ body ++
      S.after.take (trailerKeyword.length - 1)) : S.TrailersBeside body := by
  intro q hq
  obtain ⟨a, ha⟩ := Place.occurrence_of_mem_trailerWords hq
  refine .inl (Nat.le_of_not_lt fun hlt => h ?_)
  -- otherwise it begins in front of what stands behind the data
  have hbytes : (S.before ++ keyword ++ S.opening ++ body) ++ S.after =
      a ++ trailerKeyword ++ q.after := by
    rw [← ha]
    simp [Place.start, bytes, tail]
  have hlength := congrArg List.length hbytes
  have hfront : a ++ trailerKeyword <+: (S.before ++ keyword ++ S.opening ++ body) ++
      S.after.take (trailerKeyword.length - 1) := by
    refine List.prefix_of_prefix_length_le ⟨q.after, hbytes.symm⟩
      ((List.prefix_append_right_inj _).mpr (List.take_prefix _ _)) ?_
    simp only [List.length_append, List.length_take] at hlength ⊢
    omega
  exact (List.suffix_append a _).isInfix.trans hfront.isInfix

theorem Holds.next_eq (h : S.Holds body r d) {passed rest : Bytes}
    (hafter : (S.place body).after = passed ++ endKeyword ++ rest)
    (hclear : ¬ endKeyword <:+: passed ++ endKeyword.dropLast) :
    (S.place body).next = ⟨(passed ++ endKeyword).reverse ++ (S.place body).before, rest⟩ := by
  rw [Place.next, if_pos (by rw [h.read?_eq]; rfl), hafter,
    Place.find?_eq_some _ rest (by decide) hclear]
  rfl

/-- The stream is the first definition if no keyword stands before it. -/
theorem Holds.start_defined_eq (h : S.Holds body r d)
    (hclear : ¬ keyword <:+: S.before ++ keyword.dropLast) :
    (Place.start (S.bytes body)).defined = streamOf r d body :: (S.place body).next.defined := by
  rw [Place.start, Place.defined_of_find? (find?_first hclear body), h.read?_eq]
  rfl

/-- The header of the stream. -/
def stub : Written where
  number := .one
  generation := .zero
  body := []
  afterKeyword := .lf
  afterBody := .lf
  afterEnd := .lf
  body_clear := by decide

def twentySeven : Digits := ⟨Bytes.ofAscii "27", by decide, by decide +kernel⟩

/-- The length of the data. -/
def sizedMeasure : Measure :=
  ⟨Bytes.ofAscii "/Length", "Length", twentySeven, by decide +kernel,
    fun _ => by rw [Lookahead.nextToken_eq]; cbv⟩

/-- The dictionary that states it. -/
def sizedDict : Dict := Measure.insertAll [] [sizedMeasure]

/-- What follows the word `trailer`. -/
def rootTrailer : Bytes := Bytes.ofAscii "<</Root<</Pages<</Type/Pages>>>>>>"

/-- What stands between the header and the data. -/
def sizedOpening : Bytes :=
  0x0A :: (Bytes.ofAscii "<<" ++ (Measure.textOf [sizedMeasure] ++ Lookahead.streamStart))

/-- A stream of 27 bytes between other bytes, in a file with a root. -/
def sized (front back : Bytes) : Slot where
  before := front ++ stub.header
  opening := sizedOpening
  after := Bytes.ofAscii "\nendstream\n" ++ endKeyword ++
    0x0A :: (back ++ trailerKeyword ++ rootTrailer)

section Sized

variable {front back : Bytes}

theorem sized_holds (hfront : front.reverse.head?.all Byte.endsToken = true)
    (hlength : body.length = 27)
    (hreached : (sized front back).place body ∈
      (Place.start ((sized front back).bytes body)).keywords) :
    (sized front back).Holds body ⟨1, 0⟩ sizedDict where
  reached := hreached
  opened := by
    obtain ⟨tail, htail⟩ : ∃ tail, tail = (sized front back).tail body := ⟨_, rfl⟩
    obtain ⟨rest, hrest⟩ : ∃ rest, rest = (sized front back).opening ++ tail := ⟨_, rfl⟩
    have hplace : (sized front back).place body =
        ⟨(stub.header ++ keyword).reverse ++ front.reverse, rest⟩ := by
      simp [place, sized, hrest, htail]
    have hopening : rest = 0x0A :: (Bytes.ofAscii "<<" ++ (Measure.textOf [sizedMeasure] ++
        (Lookahead.streamStart ++ tail))) := by
      simp [hrest, sized, sizedOpening]
    have hends : rest.head?.all Byte.endsToken = true := by
      rw [hopening]
      rfl
    have hexact : stub.Exact := ⟨by decide, by decide⟩
    have hstream := Lookahead.ofBytes_streamStart tail
    refine ⟨_, _, Lookahead.ofBytes (Lookahead.streamStart ++ tail),
      hplace ▸ definition?_written stub hfront hends, readHeader_written hexact hends, ?_, ?_, ?_⟩
    · rw [hopening]
      refine (Lookahead.leads_dictStart _).trans (Lookahead.leads_measures _ _ _ ?_)
      rw [hstream]
      intro key h
      cases h
    · rw [hstream]
      exact ⟨rfl, rfl⟩
    · rw [hstream, ← htail]
      rfl
  marked := ⟨0x0A :: (endKeyword ++ 0x0A :: (back ++ trailerKeyword ++ rootTrailer)), by
    simp only [sized, List.append_assoc]
    rfl⟩
  measured := by
    have hvalue : twentySeven.value = 27 := by decide +kernel
    have hexact : twentySeven.value < 2 ^ 53 := sizedMeasure.exact
    show (if 0 ≤ Whole.double twentySeven.value then
      some (Whole.double twentySeven.value).toUInt64.toNat else none) = _
    rw [if_pos (Whole.zero_le_double hexact), Whole.toUInt64_double hexact, hvalue, hlength]
  untyped := ⟨by decide, by decide⟩

/-- The stream is the first definition if no keyword stands before it. -/
theorem sized_holds_first (hfront : front.reverse.head?.all Byte.endsToken = true)
    (hclear : ¬ keyword <:+: (sized front back).before ++ keyword.dropLast)
    (hlength : body.length = 27) : (sized front back).Holds body ⟨1, 0⟩ sizedDict := by
  refine sized_holds hfront hlength ?_
  rw [Place.start, Place.keywords_of_find? (find?_first hclear body)]
  exact List.mem_cons_self

/-- No definition ends before the end behind the stream. -/
def Endless (body : Bytes) : Prop :=
  ¬ endKeyword <:+: (sizedOpening ++ body ++ Bytes.ofAscii "\nendstream\n") ++ endKeyword.dropLast

/-- Nothing in front of the last trailer is taken for one. -/
def Trailerless (front back body : Bytes) : Prop :=
  ¬ trailerKeyword <:+: ((sized front back).before ++ keyword ++ (sized front back).opening ++ body ++
    Bytes.ofAscii "\nendstream\n" ++ endKeyword ++ 0x0A :: back) ++ trailerKeyword.dropLast

instance (body : Bytes) : Decidable (Endless body) := inferInstanceAs (Decidable (¬ _))

instance (front back body : Bytes) : Decidable (Trailerless front back body) :=
  inferInstanceAs (Decidable (¬ _))

theorem sized_closed (h : Endless body) : (sized front back).Closed body :=
  closed_of_clear rfl h

theorem sized_trailersBeside (h : Trailerless front back body) :
    (sized front back).TrailersBeside body := by
  refine trailersBeside_of_clear fun hin => h (hin.trans ?_)
  refine ⟨[], (Bytes.ofAscii "\nendstream\n").drop (trailerKeyword.length - 1) ++ endKeyword ++
    0x0A :: back ++ trailerKeyword.dropLast, ?_⟩
  have hmark : ∀ rest : Bytes, (Bytes.ofAscii "\nendstream\n" ++ rest).take
      (trailerKeyword.length - 1) ++ (Bytes.ofAscii "\nendstream\n").drop
        (trailerKeyword.length - 1) = Bytes.ofAscii "\nendstream\n" := fun _ => rfl
  simp only [sized, List.nil_append, List.append_assoc]
  rw [← List.append_assoc (List.take _ _), hmark]

theorem read_rootTrailer : Obj.ofBytes rootTrailer =
    .ok (.dict [("Root", .dict [("Pages", .dict [("Type", .name "Pages")])])]) := by
  cbv

theorem rootTrailer_clear : (¬ trailerKeyword <:+: rootTrailer) ∧
    ¬ keyword <:+: 0x0A :: ([] ++ trailerKeyword ++ rootTrailer) := by
  decide +kernel

theorem next_sized (h : (sized front back).Holds body ⟨1, 0⟩ sizedDict)
    (hend : Endless body)
    (hback : ¬ keyword <:+: 0x0A :: (back ++ trailerKeyword ++ rootTrailer)) :
    ((sized front back).place body).next.defined = [] := by
  have hafter : ((sized front back).place body).after = ((sized front back).opening ++ body ++
      Bytes.ofAscii "\nendstream\n") ++ endKeyword ++
        0x0A :: (back ++ trailerKeyword ++ rootTrailer) := by
    simp [place, tail, sized]
  rw [h.next_eq hafter hend]
  exact Place.defined_of_clear hback

/-- The trailer that is read there. -/
def rootDict : Dict := [("Root", .dict [("Pages", .dict [("Type", .name "Pages")])])]

/-- Such a file is read as the library of what it contains, if no objects are packed. -/
theorem sized_file {c : Contents} (hc : c.Of ((sized front back).bytes body)) (hpacking : c.packing = [])
    (inflate : Inflater) : file inflate ((sized front back).bytes body) = .ok c.library := by
  have hunpacked : unpackAll inflate c.library c.packing = .ok c.library := by
    rw [hpacking]
    rfl
  refine file_ok_of_root hc hunpacked (u := (sized front back).before ++ keyword ++
    (sized front back).opening ++ body ++ Bytes.ofAscii "\nendstream\n" ++ endKeyword ++ 0x0A :: back) ?_
    read_rootTrailer rfl rootTrailer_clear.1
  simp [sized, bytes, tail]

/-- The stream is all that is defined where no other keywords are. -/
theorem defined_sized (h : (sized front back).Holds body ⟨1, 0⟩ sizedDict) (hlength : body.length = 27)
    (hclear : ¬ keyword <:+: (sized front back).before ++ keyword.dropLast)
    (hend : Endless body)
    (hback : ¬ keyword <:+: 0x0A :: (back ++ trailerKeyword ++ rootTrailer)) :
    (Place.start ((sized front back).bytes body)).defined =
      [.ok (⟨1, 0⟩, .stream sizedDict body (some ⟨1, 0⟩))] := by
  rw [h.start_defined_eq hclear, next_sized h hend hback, streamOf_eq (by rw [hlength]; rfl)]

/-- The trailer behind the stream is all that is read where no other words `trailer` are. -/
theorem trailers_sized (hclear : Trailerless front back body) :
    (Place.start ((sized front back).bytes body)).trailers = [.ok rootDict] := by
  have hbytes : (sized front back).bytes body = ((sized front back).before ++ keyword ++
      (sized front back).opening ++ body ++ Bytes.ofAscii "\nendstream\n" ++ endKeyword ++
        0x0A :: back) ++ trailerKeyword ++ rootTrailer := by
    simp [sized, bytes, tail]
  rw [Place.start, hbytes, Place.trailers_cons hclear read_rootTrailer,
    Place.trailers_of_clear rootTrailer_clear.1]
  rfl

end Sized

/-- A file with nothing else in it. -/
def quiet : Slot := sized [] []

/-- Data of blanks. -/
def blanks : Bytes := List.replicate 27 0x20

/-- Data of letters. -/
def letters : Bytes := List.replicate 27 0x78

/-- Data with the end of a definition and another definition in it. -/
def spliced : Bytes := endKeyword ++ 0x0A :: (Written.ofBool .one true).bytes

/-- Data with a trailer in it. -/
def trailing : Bytes := trailerKeyword ++ Bytes.ofAscii "<</ID/x>>           "

theorem endless : Endless blanks ∧ Endless letters ∧ Endless trailing := by decide +kernel

theorem quiet_first : ¬ keyword <:+: quiet.before ++ keyword.dropLast := by decide +kernel

theorem quiet_trailerless : Trailerless [] [] blanks ∧ Trailerless [] [] letters ∧
    Trailerless [] [] spliced := by
  decide +kernel

theorem quiet_holds {body : Bytes} (hlength : body.length = 27) : quiet.Holds body ⟨1, 0⟩ sizedDict :=
  sized_holds_first rfl quiet_first hlength

/-- What a file of nothing else contains if its data is quiet as well. -/
theorem quiet_of {body : Bytes} (hlength : body.length = 27) (hend : Endless body)
    (hclear : Trailerless [] [] body) :
    Contents.Of ⟨[(⟨1, 0⟩, .stream sizedDict body (some ⟨1, 0⟩))], [rootDict]⟩ (quiet.bytes body) :=
  ⟨defined_sized (quiet_holds hlength) hlength quiet_first hend rootTrailer_clear.2,
    trailers_sized hclear⟩

theorem quiet_blanks_of :
    Contents.Of ⟨[(⟨1, 0⟩, .stream sizedDict blanks (some ⟨1, 0⟩))], [rootDict]⟩
      (quiet.bytes blanks) :=
  quiet_of rfl endless.1 quiet_trailerless.1

theorem file_sameButData_quiet : quiet.Holds blanks ⟨1, 0⟩ sizedDict ∧
    quiet.Holds letters ⟨1, 0⟩ sizedDict ∧ quiet.Contained blanks ∧ quiet.Contained letters ∧
    ∃ lib lib', file .none (quiet.bytes blanks) = .ok lib ∧
      file .none (quiet.bytes letters) = .ok lib' ∧
      lib.SameButData ⟨1, 0⟩ sizedDict blanks letters lib' := by
  have hblanks : quiet.Contained blanks := ⟨sized_closed endless.1,
    definitionsBefore_of_first quiet_first _, sized_trailersBeside quiet_trailerless.1⟩
  have hletters : quiet.Contained letters := ⟨sized_closed endless.2.1,
    definitionsBefore_of_first quiet_first _, sized_trailersBeside quiet_trailerless.2.1⟩
  have hfile := sized_file quiet_blanks_of rfl .none
  obtain ⟨lib', hfile', hsame⟩ :=
    file_sameButData (quiet_holds rfl) (quiet_holds rfl) hblanks hletters hfile
  exact ⟨quiet_holds rfl, quiet_holds rfl, hblanks, hletters, _, lib', hfile, hfile', hsame⟩

/-! ## Data that is not passed over -/

/-- Two files with other data are both read, but as libraries that differ in more than that data. -/
def Leaks (S : Slot) (body body' : Bytes) : Prop :=
  ∃ r d, S.Holds body r d ∧ S.Holds body' r d ∧ ∀ inflate, ∃ lib lib',
    file inflate (S.bytes body) = .ok lib ∧ file inflate (S.bytes body') = .ok lib' ∧
      ¬ lib.SameButData r d body body' lib'

section Leaking

variable {front back body body' : Bytes} {c c' : Contents}
  (h : (sized front back).Holds body ⟨1, 0⟩ sizedDict)
  (h' : (sized front back).Holds body' ⟨1, 0⟩ sizedDict) (hc : c.Of ((sized front back).bytes body))
  (hc' : c'.Of ((sized front back).bytes body')) (hpacking : c.packing = [])
  (hpacking' : c'.packing = [])

include h h' hc hc' hpacking hpacking'

theorem leaks_of_lookup {q : ObjRef} (hq : q ≠ ⟨1, 0⟩)
    (hne : c.plain.reverse.lookup q ≠ c'.plain.reverse.lookup q) :
    (sized front back).Leaks body body' := by
  refine ⟨_, _, h, h', fun inflate =>
    ⟨_, _, sized_file hc hpacking inflate, sized_file hc' hpacking' inflate, fun hsame => ?_⟩⟩
  rcases hsame.objects q with heq | ⟨heq, -⟩
  · rw [Contents.find?_library, Contents.find?_library] at heq
    exact hne heq
  · exact hq heq

theorem leaks_of_trailer (hne : c.trailer ≠ c'.trailer) : (sized front back).Leaks body body' :=
  ⟨_, _, h, h', fun inflate => ⟨_, _, sized_file hc hpacking inflate, sized_file hc' hpacking' inflate,
    fun hsame => hne hsame.trailer⟩⟩

end Leaking

/-! ### An end in the data -/

theorem quiet_spliced_of : Contents.Of
    ⟨[(⟨1, 0⟩, .stream sizedDict spliced (some ⟨1, 0⟩)), (⟨1, 1⟩, .bool true)], [rootDict]⟩
    (quiet.bytes spliced) := by
  have hholds : quiet.Holds spliced ⟨1, 0⟩ sizedDict := quiet_holds rfl
  have hafter : (quiet.place spliced).after = quiet.opening ++ endKeyword ++
      ([0x0A] ++ ((Written.ofBool .one true).bytes ++ quiet.after)) := by
    simp [place, tail, spliced]
  have hread := Written.readDefinition_ofBool .one (by decide +kernel) true quiet.after
  refine ⟨?_, trailers_sized quiet_trailerless.2.2⟩
  rw [hholds.start_defined_eq quiet_first, hholds.next_eq hafter (by decide +kernel),
    Place.defined_written (by decide) rfl hread, Place.Headerless.defined (by decide +kernel)]
  rfl

/-- An `endobj` in the data lets a definition in. -/
theorem quiet_leaks_spliced : quiet.Leaks spliced blanks :=
  leaks_of_lookup (q := ⟨1, 1⟩) (quiet_holds rfl) (quiet_holds rfl) quiet_spliced_of
    quiet_blanks_of rfl rfl (by decide) nofun

/-! ### A trailer in the data -/

theorem quiet_trailing_of : Contents.Of
    ⟨[(⟨1, 0⟩, .stream sizedDict trailing (some ⟨1, 0⟩))], [[("ID", .name "x")], rootDict]⟩
    (quiet.bytes trailing) := by
  have hholds : quiet.Holds trailing ⟨1, 0⟩ sizedDict := quiet_holds rfl
  refine ⟨defined_sized hholds rfl quiet_first endless.2.2 rootTrailer_clear.2, ?_⟩
  obtain ⟨passed, hpassed⟩ : ∃ passed, passed =
      Bytes.ofAscii "<</ID/x>>           \nendstream\nendobj\n" := ⟨_, rfl⟩
  have hbytes : quiet.bytes trailing = (quiet.before ++ keyword ++ quiet.opening) ++ trailerKeyword ++
      (passed ++ trailerKeyword ++ rootTrailer) := by
    rw [hpassed]
    decide +kernel
  have hread : Obj.ofBytes (passed ++ trailerKeyword ++ rootTrailer) =
      .ok (.dict [("ID", .name "x")]) := by
    rw [hpassed]
    cbv
  rw [Place.start, hbytes, Place.trailers_cons (by decide +kernel) hread,
    Place.trailers_cons (hpassed ▸ by decide +kernel) read_rootTrailer,
    Place.trailers_of_clear rootTrailer_clear.1]
  rfl

/-- A `trailer` in the data adds to the trailer. -/
theorem quiet_leaks_trailing : quiet.Leaks trailing blanks :=
  leaks_of_trailer (quiet_holds rfl) (quiet_holds rfl) quiet_trailing_of
    quiet_blanks_of rfl rfl fun heq => by cases congrArg (Dict.get? · "ID") heq

/-! ### What is read into the data -/

/-- Bytes without parentheses and backslashes. -/
def Literal (bs : Bytes) : Prop := ∀ b ∈ bs, b ≠ 0x28 ∧ b ≠ 0x29 ∧ b ≠ 0x5C

instance (bs : Bytes) : Decidable (Literal bs) :=
  decidable_of_iff (bs.all (fun b => b != 0x28 && b != 0x29 && b != 0x5C) = true)
    (by simp [Literal, and_assoc])

theorem Literal.append {bs bs' : Bytes} (h : Literal bs) (h' : Literal bs') : Literal (bs ++ bs') :=
  List.forall_mem_append.mpr ⟨h, h'⟩

/-- They stand in a string as they are. -/
theorem Literal.body_eq {bs : Bytes} (h : Literal bs) (depth : Nat) (done rest : Bytes) :
    LiteralString.body depth done (bs ++ rest) =
      LiteralString.body depth (bs.reverse ++ done) rest := by
  induction bs generalizing done with
  | nil => rfl
  | cons b bs ih =>
    obtain ⟨⟨hopen, hclose, hescape⟩, hbs⟩ := List.forall_mem_cons.mp h
    have ih := ih hbs
    rw [List.cons_append, LiteralString.body, if_neg (by simpa using hopen),
      if_neg (by simpa using hclose), if_neg (by simpa using hescape), ih]
    simp

/-- The definition of a string that is not closed. -/
def unclosed : Written where
  number := .two
  generation := .zero
  body := Bytes.ofAscii "("
  afterKeyword := .lf
  afterBody := .lf
  afterEnd := .lf
  body_clear := by decide +kernel

/-- The string goes on to the end of the file. -/
theorem read_unclosed {rest : Bytes} (h : Literal rest) :
    (Lookahead.ofBytes (unclosed.bytes ++ rest)).readDefinition.1 =
      .ok (⟨2, 0⟩, .str (0x0A :: (endKeyword ++ 0x0A :: rest))) := by
  obtain ⟨text, htext⟩ : ∃ text, text = 0x0A :: (endKeyword ++ 0x0A :: rest) := ⟨_, rfl⟩
  have hplain : Literal text := by
    have hend : Literal (0x0A :: (endKeyword ++ [0x0A])) := by decide +kernel
    have hsplit : text = (0x0A :: (endKeyword ++ [0x0A])) ++ rest := by simp [htext]
    rw [hsplit]
    exact hend.append h
  have hscan : LiteralString.scan text = (text, []) := by
    have heq := hplain.body_eq 1 [] []
    rw [List.append_nil, LiteralString.body] at heq
    rw [LiteralString.scan]
    simpa using heq
  have hnext : Lookahead.nextToken (0x0A :: 0x28 :: text) = (.str text, []) := by
    have hfrom : Token.scan (0x0A :: 0x28 :: text) =
        (.ok (.str (LiteralString.scan text).1), (LiteralString.scan text).2) := rfl
    rw [Lookahead.nextToken_eq, hfrom, hscan]
  have hobject : Obj.ofBytes (0x0A :: 0x28 :: text) = .ok (.str text) := by
    have hstep : Lookahead.step [] (Lookahead.ofBytes (0x0A :: 0x28 :: text)) =
        .done (.ok (.str text)) (Lookahead.ofBytes (0x0A :: 0x28 :: text)).shift := by
      simp only [Lookahead.ofBytes, hnext]
      rfl
    rw [Lookahead.ofBytes_eq_run, Lookahead.run_of_done hstep]
  have hcontent : unclosed.content ++ (endKeyword ++ unclosed.afterEnd.bytes ++ rest) =
      0x0A :: 0x28 :: text := by
    rw [htext]
    simp only [Written.content, List.append_assoc]
    rfl
  rw [readDefinition_written ⟨by decide, by decide⟩, hcontent, hobject, htext]
  rfl

/-- A file with such a definition in front. -/
def overread : Slot := sized unclosed.bytes []

/-- What stands behind that definition. -/
def overreadRest (body : Bytes) : Bytes :=
  stub.header ++ keyword ++ (overread.opening ++ overread.tail body)

theorem literal_parts : ∀ part ∈ [stub.header ++ keyword, sizedOpening,
    Bytes.ofAscii "\nendstream\n" ++ endKeyword, 0x0A :: trailerKeyword, rootTrailer, [0x0A]],
    Literal part := by
  decide +kernel

theorem literal_replicate {b : UInt8} (h : b ≠ 0x28 ∧ b ≠ 0x29 ∧ b ≠ 0x5C) (n : Nat) :
    Literal (List.replicate n b) :=
  fun _ hb => List.eq_of_mem_replicate hb ▸ h

theorem blanks_literal : Literal blanks := literal_replicate (by decide) 27

theorem letters_literal : Literal letters := literal_replicate (by decide) 27

theorem overreadRest_literal {body : Bytes} (h : Literal body) : Literal (overreadRest body) := by
  have hheader := literal_parts (stub.header ++ keyword) (by simp)
  have hopening := literal_parts sizedOpening (by simp)
  have hmark := literal_parts (Bytes.ofAscii "\nendstream\n" ++ endKeyword) (by simp)
  have htrailer := literal_parts (0x0A :: trailerKeyword) (by simp)
  have hroot := literal_parts rootTrailer (by simp)
  exact hheader.append (hopening.append (h.append (hmark.append (htrailer.append hroot))))

/-- A file with a string and a stream. -/
def withString (text body : Bytes) : Contents :=
  ⟨[(⟨2, 0⟩, .str text), (⟨1, 0⟩, .stream sizedDict body (some ⟨1, 0⟩))], [rootDict]⟩

theorem withString_packing (h : S.Holds body ⟨1, 0⟩ sizedDict) (text : Bytes) :
    (withString text body).packing = [] := by
  have hstr : typed? "ObjStm" (.str text) = none := rfl
  simp [withString, Contents.packing, h.typed?_eq.1, hstr]

theorem withString_lookup (text body : Bytes) :
    (withString text body).plain.reverse.lookup ⟨2, 0⟩ = some (.str text) := by
  simp [withString, Library.lookup_cons]

section Overread

variable {body : Bytes}

theorem overread_find? (body : Bytes) :
    Place.find? keyword
      (([] : Bytes) ++ unclosed.header ++ keyword ++ unclosed.content ++ endKeyword).reverse
      (unclosed.afterEnd.bytes ++ overreadRest body) = some (overread.place body) := by
  have hclear : ¬ keyword <:+: (unclosed.afterEnd.bytes ++ stub.header) ++ keyword.dropLast := by
    decide +kernel
  have hfind := Place.find?_eq_some
    (([] : Bytes) ++ unclosed.header ++ keyword ++ unclosed.content ++ endKeyword).reverse
    (overread.opening ++ overread.tail body) (by decide) hclear
  have hbefore : ((unclosed.afterEnd.bytes ++ stub.header) ++ keyword).reverse ++
      (([] : Bytes) ++ unclosed.header ++ keyword ++ unclosed.content ++ endKeyword).reverse =
      (overread.place body).before := by
    simp [place, overread, sized, Written.bytes]
  have hafter : unclosed.afterEnd.bytes ++ overreadRest body = (unclosed.afterEnd.bytes ++
      stub.header) ++ keyword ++ (overread.opening ++ overread.tail body) := by
    simp [overreadRest]
  rw [hbefore] at hfind
  rw [hafter]
  exact hfind

variable (hliteral : Literal body) (hlength : body.length = 27)

include hliteral hlength

theorem overread_holds : overread.Holds body ⟨1, 0⟩ sizedDict := by
  refine sized_holds rfl hlength ?_
  have hbytes : overread.bytes body = [] ++ (unclosed.bytes ++ overreadRest body) := by
    simp [bytes, overread, overreadRest, sized]
  have hclear : ¬ keyword <:+: [] := by decide
  have hstart : (([] : Bytes).reverse ++ []).head?.all Byte.endsToken = true := rfl
  obtain ⟨q, hkeywords⟩ :=
    Place.keywords_written hclear hstart (read_unclosed (overreadRest_literal hliteral))
  show overread.place body ∈ (Place.start (overread.bytes body)).keywords
  rw [hbytes, Place.start, hkeywords, List.append_nil,
    Place.keywords_of_find? (overread_find? body)]
  exact List.mem_cons_of_mem _ List.mem_cons_self

theorem overread_of (hend : Endless body) (hclear : Trailerless unclosed.bytes [] body) :
    (withString (0x0A :: (endKeyword ++ 0x0A :: overreadRest body)) body).Of
      (overread.bytes body) := by
  have hholds := overread_holds hliteral hlength
  have hbytes : overread.bytes body = [] ++ (unclosed.bytes ++ overreadRest body) := by
    simp [bytes, overread, overreadRest, sized]
  have hnext : (overread.place body).next.defined = [] := next_sized hholds hend rootTrailer_clear.2
  refine ⟨?_, trailers_sized hclear⟩
  rw [hbytes, Place.start,
    Place.defined_written (by decide) rfl (read_unclosed (overreadRest_literal hliteral)),
    List.append_nil, Place.defined_of_find? (overread_find? body), hholds.read?_eq, hnext,
    streamOf_eq (by rw [hlength]; rfl)]
  rfl

end Overread

theorem overreadRest_inj {body body' : Bytes} (h : overreadRest body = overreadRest body') :
    body = body' := by
  rw [overreadRest, overreadRest, List.append_cancel_left_eq, List.append_cancel_left_eq, tail, tail,
    List.append_cancel_right_eq] at h
  exact h

theorem overread_trailerless : Trailerless unclosed.bytes [] blanks ∧
    Trailerless unclosed.bytes [] letters := by
  decide +kernel

/-- What is read in front of the stream may take in its data. -/
theorem overread_leaks : overread.Leaks blanks letters := by
  have hholds := overread_holds blanks_literal rfl
  have hholds' := overread_holds letters_literal rfl
  refine leaks_of_lookup (q := ⟨2, 0⟩) hholds hholds'
    (overread_of blanks_literal rfl endless.1 overread_trailerless.1)
    (overread_of letters_literal rfl endless.2.1 overread_trailerless.2)
    (withString_packing hholds _) (withString_packing hholds' _) (by decide) fun heq => ?_
  rw [withString_lookup, withString_lookup, Option.some_inj, Obj.str.injEq, List.cons_inj_right,
    List.append_cancel_left_eq, List.cons_inj_right] at heq
  exact absurd (overreadRest_inj heq) (by decide)

/-- The entry of a trailer that is a string, which is closed behind the stream. -/
def annotated : Slot := sized (trailerKeyword ++ Bytes.ofAscii "<</ID(\n") (Bytes.ofAscii ")>>")

/-- What is read as the string. -/
def remark (body : Bytes) : Bytes :=
  0x0A :: (stub.header ++ keyword ++ annotated.opening) ++
    (body ++ Bytes.ofAscii "\nendstream\nendobj\n")

theorem remark_literal {body : Bytes} (h : Literal body) : Literal (remark body) := by
  have hline := literal_parts [0x0A] (by simp)
  have hheader := literal_parts (stub.header ++ keyword) (by simp)
  have hopening := literal_parts sizedOpening (by simp)
  have hmark := literal_parts (Bytes.ofAscii "\nendstream\n" ++ endKeyword) (by simp)
  have hstart : Literal (0x0A :: (stub.header ++ keyword ++ annotated.opening)) :=
    hline.append (hheader.append hopening)
  have hend : Literal (Bytes.ofAscii "\nendstream\nendobj\n") := hmark.append hline
  exact hstart.append (h.append hend)

theorem read_remark {text : Bytes} (h : Literal text) :
    Obj.ofBytes (Bytes.ofAscii "<<" ++ (Bytes.ofAscii "/ID" ++ 0x28 :: (text ++ 0x29 ::
      (Bytes.ofAscii ">>" ++ (trailerKeyword ++ rootTrailer))))) =
    .ok (.dict [("ID", .str text)]) := by
  obtain ⟨rest, hrest⟩ : ∃ rest, rest = Bytes.ofAscii ">>" ++ (trailerKeyword ++ rootTrailer) :=
    ⟨_, rfl⟩
  have hstart : ∀ bs, Lookahead.nextToken (Bytes.ofAscii "<<" ++ bs) = (.dictStart, bs) := by
    intro bs
    rw [Lookahead.nextToken_eq]
    rfl
  have hkey : ∀ bs, Lookahead.nextToken (Bytes.ofAscii "/ID" ++ 0x28 :: bs) =
      (.name "ID", 0x28 :: bs) := by
    intro bs
    rw [Lookahead.nextToken_eq]
    cbv
  have hscan : LiteralString.scan (text ++ 0x29 :: rest) = (text, rest) := by
    rw [LiteralString.scan, h.body_eq, LiteralString.body]
    simp
  have hstring : Lookahead.nextToken (0x28 :: (text ++ 0x29 :: rest)) = (.str text, rest) := by
    have hfrom : Token.scan (0x28 :: (text ++ 0x29 :: rest)) =
        (.ok (.str (LiteralString.scan (text ++ 0x29 :: rest)).1),
          (LiteralString.scan (text ++ 0x29 :: rest)).2) := rfl
    rw [Lookahead.nextToken_eq, hfrom, hscan]
  have hend : Lookahead.nextToken rest = (.dictEnd, trailerKeyword ++ rootTrailer) := by
    rw [hrest, Lookahead.nextToken_eq]
    rfl
  have hword : Lookahead.nextToken (trailerKeyword ++ rootTrailer) =
      (.word "trailer", rootTrailer) := by
    rw [Lookahead.nextToken_eq]
    cbv
  have hview : Lookahead.ofBytes (Bytes.ofAscii "<<" ++ (Bytes.ofAscii "/ID" ++
      0x28 :: (text ++ 0x29 :: rest))) =
      ⟨.dictStart, .name "ID", 0x28 :: (text ++ 0x29 :: rest)⟩ := by
    simp only [Lookahead.ofBytes, hstart, hkey]
  have hopen : Lookahead.step [] ⟨.dictStart, .name "ID", 0x28 :: (text ++ 0x29 :: rest)⟩ =
      .more [.dict []] ⟨.name "ID", .str text, rest⟩ := by
    simp [Lookahead.step, Lookahead.opening, Lookahead.shift, hstring]
  have hentry : Lookahead.step [.dict []] ⟨.name "ID", .str text, rest⟩ =
      .more [.entry [] "ID"] ⟨.str text, .dictEnd, trailerKeyword ++ rootTrailer⟩ := by
    simp [Lookahead.step, Lookahead.shift, hend]
  have hvalue : Lookahead.step [.entry [] "ID"] ⟨.str text, .dictEnd, trailerKeyword ++ rootTrailer⟩ =
      .more [.dict [("ID", .str text)]] ⟨.dictEnd, .word "trailer", rootTrailer⟩ := by
    simp [Lookahead.step, Lookahead.opening, Lookahead.shift, hword, Lookahead.settle, Dict.insert]
  have hclose : Lookahead.step [.dict [("ID", .str text)]] ⟨.dictEnd, .word "trailer", rootTrailer⟩ =
      .done (.ok (.dict [("ID", .str text)]))
        (Lookahead.shift ⟨.dictEnd, .word "trailer", rootTrailer⟩) := by
    simp [Lookahead.step, Lookahead.close, Lookahead.settle, Except.mapError]
  rw [← hrest, Lookahead.ofBytes_eq_run, hview, Lookahead.run_of_more hopen,
    Lookahead.run_of_more hentry, Lookahead.run_of_more hvalue, Lookahead.run_of_done hclose]

theorem trailers_annotated {body : Bytes} (hliteral : Literal body)
    (hclear : ¬ trailerKeyword <:+: (Bytes.ofAscii "<</ID(" ++ remark body ++
      Bytes.ofAscii ")>>") ++ trailerKeyword.dropLast) :
    (Place.start (annotated.bytes body)).trailers =
      [.ok [("ID", .str (remark body))], .ok rootDict] := by
  obtain ⟨rest, hrest⟩ : ∃ rest, rest = Bytes.ofAscii "<<" ++ (Bytes.ofAscii "/ID" ++ 0x28 ::
      (remark body ++ 0x29 :: (Bytes.ofAscii ">>" ++ (trailerKeyword ++ rootTrailer)))) := ⟨_, rfl⟩
  have hbytes : annotated.bytes body = [] ++ trailerKeyword ++ rest := by
    simp only [hrest, bytes, tail, annotated, sized, remark, List.append_assoc, List.cons_append]
    rfl
  have hsecond : rest = (Bytes.ofAscii "<</ID(" ++ remark body ++ Bytes.ofAscii ")>>") ++
      trailerKeyword ++ rootTrailer := by
    simp only [hrest, List.append_assoc]
    rfl
  rw [Place.start, hbytes, Place.trailers_cons (by decide)
      (hrest ▸ read_remark (remark_literal hliteral)), hsecond,
    Place.trailers_cons hclear read_rootTrailer, Place.trailers_of_clear rootTrailer_clear.1]
  rfl

theorem annotated_first : (¬ keyword <:+: annotated.before ++ keyword.dropLast) ∧
    ¬ keyword <:+: 0x0A :: (Bytes.ofAscii ")>>" ++ trailerKeyword ++ rootTrailer) := by
  decide +kernel

theorem annotated_clear : ∀ body ∈ [blanks, letters],
    ¬ trailerKeyword <:+: (Bytes.ofAscii "<</ID(" ++ remark body ++ Bytes.ofAscii ")>>") ++
      trailerKeyword.dropLast := by
  decide +kernel

theorem annotated_holds {body : Bytes} (hlength : body.length = 27) :
    annotated.Holds body ⟨1, 0⟩ sizedDict :=
  sized_holds_first rfl annotated_first.1 hlength

theorem annotated_of {body : Bytes} (hlength : body.length = 27) (hend : Endless body)
    (hliteral : Literal body) (hclear : ¬ trailerKeyword <:+: (Bytes.ofAscii "<</ID(" ++ remark body ++
      Bytes.ofAscii ")>>") ++ trailerKeyword.dropLast) :
    Contents.Of ⟨[(⟨1, 0⟩, .stream sizedDict body (some ⟨1, 0⟩))],
      [[("ID", .str (remark body))], rootDict]⟩ (annotated.bytes body) :=
  ⟨defined_sized (annotated_holds hlength) hlength annotated_first.1 hend annotated_first.2,
    trailers_annotated hliteral hclear⟩

theorem remark_inj {body body' : Bytes} (h : remark body = remark body') : body = body' := by
  rw [remark, remark, List.append_cancel_left_eq, List.append_cancel_right_eq] at h
  exact h

/-- So may what is read as a trailer. -/
theorem annotated_leaks : annotated.Leaks blanks letters := by
  refine leaks_of_trailer (annotated_holds rfl) (annotated_holds rfl)
    (annotated_of rfl endless.1 blanks_literal (annotated_clear _ (by simp)))
    (annotated_of rfl endless.2.1 letters_literal (annotated_clear _ (by simp))) rfl rfl
    fun heq => ?_
  have hget : some (Obj.str (remark blanks)) = some (Obj.str (remark letters)) :=
    congrArg (Dict.get? · "ID") heq
  rw [Option.some_inj, Obj.str.injEq] at hget
  exact absurd (remark_inj hget) (by decide)

/-- **None of the conditions can be left out.** -/
theorem leaks_uncontained :
    (quiet.Leaks spliced blanks ∧ (∀ body, quiet.DefinitionsBefore body) ∧
      quiet.TrailersBeside spliced ∧ quiet.TrailersBeside blanks) ∧
    (quiet.Leaks trailing blanks ∧ quiet.Closed trailing ∧ quiet.Closed blanks ∧
      ∀ body, quiet.DefinitionsBefore body) ∧
    (overread.Leaks blanks letters ∧ overread.Closed blanks ∧ overread.Closed letters ∧
      overread.TrailersBeside blanks ∧ overread.TrailersBeside letters) ∧
    (annotated.Leaks blanks letters ∧ annotated.Closed blanks ∧ annotated.Closed letters ∧
      ∀ body, annotated.DefinitionsBefore body) := by
  refine ⟨⟨quiet_leaks_spliced, definitionsBefore_of_first quiet_first,
      sized_trailersBeside quiet_trailerless.2.2, sized_trailersBeside quiet_trailerless.1⟩,
    ⟨quiet_leaks_trailing, sized_closed endless.2.2, sized_closed endless.1,
      definitionsBefore_of_first quiet_first⟩,
    ⟨overread_leaks, sized_closed endless.1, sized_closed endless.2.1,
      sized_trailersBeside overread_trailerless.1, sized_trailersBeside overread_trailerless.2⟩,
    ⟨annotated_leaks, sized_closed endless.1, sized_closed endless.2.1,
      definitionsBefore_of_first annotated_first.1⟩⟩

end PdfScene.Scan.Slot
