import PdfScene.Proofs.Store.Holdings
import PdfScene.Store.Scan

/-!
# Libraries read from files

Where a library comes from a file, a stream can be told by its reference: `Scan.file_coherent`.
Reading an object gives a plain one, and a definition gives its reference to the object as a whole,
so the streams with references are the objects themselves and each carries the reference it is found
under. `Library.Labelled` says so of a library; all that puts objects into one keeps it.
-/

set_option autoImplicit false

namespace PdfScene

/-! ## Labelled libraries -/

theorem Obj.dict?_definedUnder (r : ObjRef) (o : Obj) : (o.definedUnder r).dict? = o.dict? := by
  cases o <;> rfl

theorem Obj.array?_definedUnder (r : ObjRef) (o : Obj) : (o.definedUnder r).array? = o.array? := by
  cases o <;> rfl

namespace Library

/-- An object in its place: a plain one, or one that is defined under a reference and found there.
-/
def InPlace (lib : Library) (o : Obj) : Prop :=
  o.Plain ∨ ∃ (r : ObjRef) (o' : Obj), o'.Plain ∧ o = o'.definedUnder r ∧ lib.find? r = some o

/-- Every object of a library is plain, but for the reference that it is defined under. -/
def Labelled (lib : Library) : Prop :=
  ∀ r o, lib.find? r = some o → o.Plain ∨ ∃ o' : Obj, o'.Plain ∧ o = o'.definedUnder r

variable {lib : Library} {roots : List Dict}

theorem InPlace.entries {o : Obj} {d : Dict} (h : lib.InPlace o) (hd : o.dict? = some d) :
    ∀ e ∈ d, e.2.Plain := by
  rcases h with h | ⟨r, o', ho', rfl, _⟩
  · exact h.entries hd
  · exact ho'.entries (Obj.dict?_definedUnder r o' ▸ hd)

theorem InPlace.items {o : Obj} {items : List Obj} (h : lib.InPlace o)
    (hi : o.array? = some items) : ∀ x ∈ items, x.Plain := by
  rcases h with h | ⟨r, o', ho', rfl, _⟩
  · exact h.items hi
  · exact ho'.items (Obj.array?_definedUnder r o' ▸ hi)

/-- In a labelled library everything that comes up is in its place. -/
theorem Labelled.inPlace {o : Obj} (hlib : lib.Labelled)
    (hroots : ∀ d ∈ roots, ∀ e ∈ d, lib.InPlace e.2) (h : lib.Holds roots o) : lib.InPlace o := by
  induction h with
  | plain h => exact .inl h
  | root hd he => exact hroots _ hd _ he
  | @object r o hfind =>
    rcases hlib r o hfind with h | ⟨o', ho', heq⟩
    · exact .inl h
    · exact .inr ⟨r, o', ho', heq, hfind⟩
  | item _ ho ih => exact .inl (ih.items rfl _ ho)
  | entry _ hd he ih => exact .inl (ih.entries hd _ he)

/-- **In a labelled library a stream can be told by its reference.** -/
theorem Labelled.coherent (hlib : lib.Labelled) (hroots : ∀ d ∈ roots, ∀ e ∈ d, lib.InPlace e.2) :
    lib.Coherent roots := by
  -- a stream that has a reference is the very object that the reference leads to
  have hfind : ∀ s r, lib.HoldsStream roots s → s.ref = some r → lib.find? r = some s.toObj := by
    intro ⟨dict, data, ref⟩ r hs hr
    rcases hlib.inPlace hroots hs with h | ⟨r', o', _, heq, hfind⟩
    · exact absurd (h.stream_ref.symm.trans hr) nofun
    · cases o' <;> cases heq
      cases hr
      exact hfind
  intro s t hs ht hne heq
  cases hr : s.ref with
  | none => exact absurd hr hne
  | some r =>
    have hobj := (hfind s r hs hr).symm.trans (hfind t r ht (heq ▸ hr))
    obtain ⟨_, _, _⟩ := s
    obtain ⟨_, _, _⟩ := t
    simpa [StreamObj.toObj] using hobj

theorem Labelled.empty : Library.empty.Labelled := fun r o h => by
  simp [Library.empty, Library.find?] at h

theorem find?_insert {r r' : ObjRef} {o : Obj} :
    (lib.insert r o).find? r' = if r = r' then some o else lib.find? r' := by
  simp [Library.insert, Library.find?, Std.HashMap.getElem?_insert]

/-- A plain object may be put into a library, with or without a label. -/
theorem Labelled.insert {r : ObjRef} {o : Obj} (h : lib.Labelled)
    (ho : o.Plain ∨ ∃ o' : Obj, o'.Plain ∧ o = o'.definedUnder r) : (lib.insert r o).Labelled := by
  intro r' o' hfind
  rw [find?_insert] at hfind
  split at hfind
  · rename_i hr
    cases hfind
    exact hr ▸ ho
  · exact h r' o' hfind

end Library

/-! ## Scanning keeps a library labelled -/

namespace Scan

theorem mapError_eq_ok {ε ε' α : Type} {f : ε → ε'} {r : Except ε α} {a : α}
    (h : r.mapError f = .ok a) : r = .ok a := by
  cases r with
  | error e => cases h
  | ok a' =>
    cases h
    rfl

theorem Found.add_labelled {f : Found} {r : ObjRef} {o : Obj} (h : f.library.Labelled)
    (ho : ∃ o' : Obj, o'.Plain ∧ o = o'.definedUnder r) : (f.add r o).library.Labelled := by
  unfold Found.add
  refine Library.Labelled.insert ?_ (.inr ho)
  split
  · exact h
  · dsimp only
    split
    · exact h
    · split
      · exact h
      · exact h

theorem labelled_of_definition {q : Place} {r : ObjRef} {o : Obj}
    (h : (definition? q).map (fun source => (Lookahead.ofBytes source).readDefinition.1) =
      some (.ok (r, o))) : ∃ o' : Obj, o'.Plain ∧ o = o'.definedUnder r := by
  obtain ⟨source, _, hread⟩ := Option.map_eq_some_iff.mp h
  exact Lookahead.readDefinition_labelled hread

theorem definitions_labelled {f f' : Found} {p : Place} (h : f.library.Labelled)
    (hf : definitions f p = .ok f') : f'.library.Labelled := by
  fun_induction definitions f p with
  | case1 =>
    cases hf
    exact h
  | case2 f p q _ r o hread _ _ ih => exact ih (Found.add_labelled h (labelled_of_definition hread)) hf
  | case3 f p q _ r o hread _ ih => exact ih (Found.add_labelled h (labelled_of_definition hread)) hf
  | case4 => cases hf
  | case5 => rename_i ih; exact ih h hf

theorem unpack_labelled {data : Bytes} {first count : Nat} {lib lib' : Library} {header : Lookahead}
    (h : lib.Labelled) (hlib : unpack data first lib header count = .ok lib') : lib'.Labelled := by
  fun_induction unpack data first lib header count with
  | case1 =>
    cases hlib
    exact h
  | case2 => cases hlib
  | case3 =>
    cases hlib
    exact h
  | case4 => rename_i ih; exact ih h hlib
  | case5 => rename_i hread ih; exact ih (h.insert (.inl (Lookahead.readObject_plain hread))) hlib
  | case6 => cases hlib
  | case7 => rename_i ih; exact ih h hlib

/-- What a stream of packed objects adds is unpacked from its data. -/
theorem unpackStream_eq_ok {inflate : Inflater} {lib lib' : Library} {s : StreamObj}
    (h : unpackStream inflate lib s = .ok lib') :
    ∃ data first header count, unpack data first lib header count = .ok lib' := by
  unfold unpackStream at h
  dsimp only at h
  split at h
  · cases h
  · cases hdecode : s.decode inflate with
    | error e =>
      rw [hdecode] at h
      cases h
    | ok decoded =>
      rw [hdecode] at h
      exact ⟨_, _, _, _, mapError_eq_ok h⟩

/-- Streams of packed objects that cannot be unpacked add nothing. -/
theorem unpackAll_labelled {inflate : Inflater} {packed : List StreamObj} {lib lib' : Library}
    (h : lib.Labelled) (hlib : unpackAll inflate lib packed = .ok lib') : lib'.Labelled := by
  fun_induction unpackAll inflate lib packed with
  | case1 =>
    cases hlib
    exact h
  | case2 =>
    rename_i hs ih
    obtain ⟨data, first, header, count, hunpack⟩ := unpackStream_eq_ok hs
    exact ih (unpack_labelled h hunpack) hlib
  | case3 => cases hlib
  | case4 => rename_i ih; exact ih h hlib

/-- What a file is read as comes of its definitions, its trailers and its packed objects. -/
theorem file_eq_ok {inflate : Inflater} {bytes : Bytes} {lib : Library}
    (h : file inflate bytes = .ok lib) : ∃ found trailer unpacked,
      definitions ⟨.empty, []⟩ (.start bytes) = .ok found ∧
      trailers found.library.trailer (.start bytes) = .ok trailer ∧
      unpackAll inflate { found.library with trailer } found.packed.reverse = .ok unpacked ∧
      rooted unpacked = .ok lib := by
  unfold file gather at h
  cases hfound : definitions ⟨.empty, []⟩ (.start bytes) with
  | error x =>
    rw [hfound] at h
    cases h
  | ok found =>
    cases htrailer : trailers found.library.trailer (.start bytes) with
    | error x =>
      simp only [hfound, htrailer, bind, Except.bind] at h
      cases h
    | ok trailer =>
      cases hunpacked : unpackAll inflate { found.library with trailer } found.packed.reverse with
      | error x =>
        simp only [hfound, htrailer, hunpacked, bind, Except.bind] at h
        cases h
      | ok unpacked =>
        simp only [hfound, htrailer, hunpacked, bind, Except.bind] at h
        exact ⟨found, trailer, unpacked, rfl, htrailer, hunpacked, h⟩

/-- A root in the trailer changes nothing about the objects. -/
theorem find?_of_rooted {lib lib' : Library} (h : rooted lib = .ok lib') (r : ObjRef) :
    lib'.find? r = lib.find? r := by
  unfold rooted at h
  split at h
  · cases h
    rfl
  · split at h
    · cases h
      rfl
    · cases h

/-- **A library that has been read from a file is labelled.** -/
theorem file_labelled {inflate : Inflater} {bytes : Bytes} {lib : Library}
    (h : file inflate bytes = .ok lib) : lib.Labelled := by
  obtain ⟨found, trailer, unpacked, hfound, -, hunpacked, hrooted⟩ := file_eq_ok h
  have hplain : found.library.Labelled := definitions_labelled Library.Labelled.empty hfound
  have htrailer : Library.Labelled { found.library with trailer } := hplain
  have hall := unpackAll_labelled htrailer hunpacked
  exact fun r o hfind => hall r o (find?_of_rooted hrooted r ▸ hfind)

/-! ## The trailer -/

theorem mergeTrailer_plain {trailer d : Dict} (ht : ∀ e ∈ trailer, e.2.Plain)
    (hd : ∀ e ∈ d, e.2.Plain) : ∀ e ∈ mergeTrailer trailer d, e.2.Plain := by
  unfold mergeTrailer
  induction d generalizing trailer with
  | nil => exact ht
  | cons entry rest ih =>
    obtain ⟨hentry, hrest⟩ := List.forall_mem_cons.mp hd
    refine ih ?_ hrest
    dsimp only
    split
    · exact Dict.plain_insert ht hentry
    · exact ht

/-- The trailer takes in the dictionaries of streams, whose entries are plain. -/
theorem Found.add_trailer {f : Found} {r : ObjRef} {o : Obj}
    (h : ∀ e ∈ f.library.trailer, e.2.Plain) (ho : ∃ o' : Obj, o'.Plain ∧ o = o'.definedUnder r) :
    ∀ e ∈ (f.add r o).library.trailer, e.2.Plain := by
  obtain ⟨o', ho', rfl⟩ := ho
  unfold Found.add
  dsimp only [Library.insert]
  cases hs : (o'.definedUnder r).stream? with
  | none => exact h
  | some s =>
    have hdict : o'.dict? = some s.dict := by
      rw [← Obj.dict?_definedUnder r, StreamObj.toObj_of_stream? hs]
      rfl
    dsimp only
    split
    · exact h
    · split
      · exact mergeTrailer_plain h (ho'.entries hdict)
      · exact h

theorem definitions_trailer {f f' : Found} {p : Place} (h : ∀ e ∈ f.library.trailer, e.2.Plain)
    (hf : definitions f p = .ok f') : ∀ e ∈ f'.library.trailer, e.2.Plain := by
  fun_induction definitions f p with
  | case1 =>
    cases hf
    exact h
  | case2 f p q _ r o hread _ _ ih => exact ih (Found.add_trailer h (labelled_of_definition hread)) hf
  | case3 f p q _ r o hread _ ih => exact ih (Found.add_trailer h (labelled_of_definition hread)) hf
  | case4 => cases hf
  | case5 => rename_i ih; exact ih h hf

theorem trailers_plain {trailer trailer' : Dict} {p : Place} (h : ∀ e ∈ trailer, e.2.Plain)
    (ht : trailers trailer p = .ok trailer') : ∀ e ∈ trailer', e.2.Plain := by
  fun_induction trailers trailer p with
  | case1 =>
    cases ht
    exact h
  | case2 trailer p q _ d hread ih =>
    exact ih (mergeTrailer_plain h ((Lookahead.readObject_plain hread).entries rfl)) ht
  | case3 => cases ht
  | case4 => rename_i ih; exact ih h ht

theorem unpack_trailer {data : Bytes} {first count : Nat} {lib lib' : Library} {header : Lookahead}
    (h : unpack data first lib header count = .ok lib') : lib'.trailer = lib.trailer := by
  fun_induction unpack data first lib header count with
  | case1 => cases h; rfl
  | case2 => cases h
  | case3 => cases h; rfl
  | case4 => rename_i ih; exact ih h
  | case5 => rename_i ih; exact ih h
  | case6 => cases h
  | case7 => rename_i ih; exact ih h

theorem unpackAll_trailer {inflate : Inflater} {packed : List StreamObj} {lib lib' : Library}
    (h : unpackAll inflate lib packed = .ok lib') : lib'.trailer = lib.trailer := by
  fun_induction unpackAll inflate lib packed with
  | case1 => cases h; rfl
  | case2 =>
    rename_i hs ih
    obtain ⟨data, first, header, count, hunpack⟩ := unpackStream_eq_ok hs
    exact (ih h).trans (unpack_trailer hunpack)
  | case3 => cases h
  | case4 => rename_i ih; exact ih h

/-- **The trailer of a library that has been read from a file is plain.** -/
theorem file_trailer {inflate : Inflater} {bytes : Bytes} {lib : Library}
    (h : file inflate bytes = .ok lib) : ∀ e ∈ lib.trailer, e.2.Plain := by
  obtain ⟨found, trailer, unpacked, hfound, htrailer, hunpacked, hrooted⟩ := file_eq_ok h
  have hscanned : ∀ e ∈ unpacked.trailer, e.2.Plain := by
    rw [unpackAll_trailer hunpacked]
    exact trailers_plain (definitions_trailer (by simp [Library.empty]) hfound) htrailer
  unfold rooted at hrooted
  split at hrooted
  · cases hrooted
    exact hscanned
  · split at hrooted
    · cases hrooted
      exact Dict.plain_insert hscanned (.atom rfl rfl)
    · cases hrooted

/-- **In a library that has been read from a file a stream can be told by its reference**, whatever
dictionaries of it one starts from. -/
theorem file_coherent {inflate : Inflater} {bytes : Bytes} {lib : Library} {roots : List Dict}
    (h : file inflate bytes = .ok lib) (hroots : ∀ d ∈ roots, lib.HoldsDict [] d) : lib.Coherent roots :=
  (file_labelled h).coherent fun d hd e he =>
    (file_labelled h).inPlace (by simp) (hroots d hd e he)

end Scan

end PdfScene
