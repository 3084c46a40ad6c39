import PdfScene.Proofs.Store.Trailers

/-!
# What a file contains

Scanning goes through a file and puts what it reads into a library as it goes. Here the two are taken
apart: `Place.defined` lists what the definitions of a file are read as, `Place.trailers` its
trailer dictionaries and `StreamObj.unpacked` what a stream of packed objects holds, and a library is
what comes of these lists (`file_eq_ok_iff`). So what is found under a reference can be told from the
lists (`Contents.find?_library`): a plain definition counts before a packed object, the last of the
plain definitions before the others, and the first of the packed objects.

The lists have the panics in them as well, in their places, and a file is read only if it contains
none (`Contents.Of`).
-/

set_option autoImplicit false

namespace PdfScene

open Scan

/-- What a reading gives or ends the program with. An error that is passed over is nothing. -/
def outcome? {α : Type} : Except Error α → Option (Except Panic α)
  | .ok a => some (.ok a)
  | .error (.panic x) => some (.error x)
  | .error _ => none

/-! ## Putting lists of objects into a library -/

/-- A packed object, and what is read where it stands. -/
abbrev Packed := Except Panic (ObjRef × Except Panic Obj)

/-- The object, if there is no panic. -/
def Packed.object? : Packed → Option (ObjRef × Obj)
  | .ok (r, .ok o) => some (r, o)
  | _ => none

namespace Library

/-- The library with an object under a reference that leads nowhere yet. If it leads somewhere, the
object is not read. -/
def insertNew (lib : Library) : Packed → Except Panic Library
  | .error x => .error x
  | .ok (r, o) => if (lib.find? r).isSome then .ok lib else o.map (lib.insert r)

variable {lib lib' : Library} {entries : List Packed}

theorem lookup_cons (entries : List (ObjRef × Obj)) (r : ObjRef) (o : Obj) (r' : ObjRef) :
    List.lookup r' ((r, o) :: entries) = if r = r' then some o else List.lookup r' entries := by
  rw [List.lookup_cons]
  by_cases h : r = r'
  · simp [h]
  · have hne : (r' == r) = false := beq_eq_false_iff_ne.mpr (Ne.symm h)
    simp [h, hne]

/-- An object is put in where there is none, and then it can be read. -/
theorem insertNew_eq_ok {entry : Packed} (h : lib.insertNew entry = .ok lib') :
    (∃ r o, entry = .ok (r, o) ∧ (lib.find? r).isSome ∧ lib' = lib) ∨
      ∃ r o, entry = .ok (r, .ok o) ∧ lib.find? r = none ∧ lib' = lib.insert r o := by
  rcases entry with x | ⟨r, o⟩
  · cases h
  rw [insertNew] at h
  cases hfind : lib.find? r with
  | some o' =>
    rw [hfind] at h
    exact .inl ⟨r, o, rfl, by rw [hfind]; rfl, (Except.ok.inj h).symm⟩
  | none =>
    rw [hfind] at h
    cases o with
    | error x => cases h
    | ok o => exact .inr ⟨r, o, rfl, hfind, (Except.ok.inj h).symm⟩

/-- Of objects put in where there is none, the first one under a reference counts. -/
theorem find?_insertNew (h : entries.foldlM insertNew lib = .ok lib') (r : ObjRef) :
    lib'.find? r = (lib.find? r).or ((entries.filterMap Packed.object?).lookup r) := by
  induction entries generalizing lib with
  | nil =>
    cases h
    simp
  | cons entry entries ih =>
    rw [List.foldlM_cons] at h
    cases hentry : lib.insertNew entry with
    | error x =>
      rw [hentry] at h
      cases h
    | ok next =>
      rw [hentry] at h
      rw [ih h]
      rcases insertNew_eq_ok hentry with ⟨r', o, rfl, hsome, rfl⟩ | ⟨r', o, rfl, hnone, rfl⟩
      · cases o with
        | error x => rfl
        | ok o =>
          rw [List.filterMap_cons_some (by rfl), lookup_cons]
          split
          · rename_i hr
            rw [hr] at hsome
            rw [Option.or_of_isSome hsome, Option.or_of_isSome hsome]
          · rfl
      · rw [List.filterMap_cons_some (by rfl), lookup_cons, find?_insert]
        split
        · rename_i hr
          rw [← hr, hnone]
          rfl
        · rfl

theorem trailer_insertNew (h : entries.foldlM insertNew lib = .ok lib') :
    lib'.trailer = lib.trailer := by
  induction entries generalizing lib with
  | nil =>
    cases h
    rfl
  | cons entry entries ih =>
    rw [List.foldlM_cons] at h
    cases hentry : lib.insertNew entry with
    | error x =>
      rw [hentry] at h
      cases h
    | ok next =>
      rw [hentry] at h
      rw [ih h]
      rcases insertNew_eq_ok hentry with ⟨_, _, -, -, rfl⟩ | ⟨_, _, -, -, rfl⟩
      · rfl
      · rfl

end Library

/-! ## Packed objects -/

namespace Scan

/-- The objects that a header of `count` numbers and offsets leads to. -/
def packedAt (data : Bytes) (first : Nat) (header : Lookahead) : Nat → List Packed
  | 0 => []
  | count + 1 =>
    match readEntry header with
    | (.error x, _) => [.error x]
    | (.ok none, _) => []
    | (.ok (some (number, offset)), header) =>
      let o := outcome? (Obj.ofBytes (data.drop (Bytes.wrap (first + offset.toUInt64.toNat))))
      (o.map fun o => Except.ok (⟨number.toUInt32, 0⟩, o)).toList ++ packedAt data first header count

theorem unpack_eq (data : Bytes) (first : Nat) (lib : Library) (header : Lookahead) (count : Nat) :
    unpack data first lib header count =
      (packedAt data first header count).foldlM Library.insertNew lib := by
  induction count generalizing lib header with
  | zero => rfl
  | succ count ih =>
    rw [unpack, packedAt]
    rcases readEntry header with ⟨x | _ | ⟨number, offset⟩, header⟩
    · rfl
    · rfl
    dsimp only
    rw [List.foldlM_append, ih]
    rcases hread : Obj.ofBytes (data.drop (Bytes.wrap (first + offset.toUInt64.toNat))) with e | o
    · cases e with
      | panic x =>
        simp only [outcome?, Option.map_some, Option.toList_some, List.foldlM_cons, List.foldlM_nil,
          Library.insertNew]
        split <;> rfl
      | _ =>
        rw [ite_self]
        rfl
    · simp only [outcome?, Option.map_some, Option.toList_some, List.foldlM_cons, List.foldlM_nil,
        Library.insertNew, ih]
      split <;> rfl

end Scan

/-- What a stream packs, in order. One that cannot be decoded packs nothing. -/
def StreamObj.unpacked (inflate : Inflater) (s : StreamObj) : List Packed :=
  let count := ((s.dict.get? "N").bind Obj.int?).getD 0
  let first := ((s.dict.get? "First").bind Obj.int?).getD 0
  if count ≤ 0 ∨ first < 0 then []
  else
    match outcome? (s.decode inflate) with
    | some (.ok decoded) =>
      packedAt decoded.data first.toNat (.ofBytes (decoded.data.take first.toNat)) count.toNat
    | some (.error x) => [.error x]
    | none => []

/-- The objects that a stream packs and that can be read, in order. -/
def StreamObj.packed (inflate : Inflater) (s : StreamObj) : List (ObjRef × Obj) :=
  (s.unpacked inflate).filterMap Packed.object?

namespace Scan

/-- Taking in streams of packed objects is taking in the objects, each where there is none. -/
theorem unpackAll_eq (inflate : Inflater) (streams : List StreamObj) (lib : Library) :
    unpackAll inflate lib streams =
      (streams.flatMap (StreamObj.unpacked inflate)).foldlM Library.insertNew lib := by
  induction streams generalizing lib with
  | nil => rfl
  | cons s streams ih =>
    rw [unpackAll, List.flatMap_cons, List.foldlM_append]
    unfold unpackStream StreamObj.unpacked
    dsimp only
    by_cases hheader : ((s.dict.get? "N").bind Obj.int?).getD 0 ≤ 0 ∨
        ((s.dict.get? "First").bind Obj.int?).getD 0 < 0
    · rw [if_pos hheader, if_pos hheader]
      exact ih lib
    · rw [if_neg hheader, if_neg hheader]
      cases s.decode inflate with
      | error e => cases e <;> first | exact ih lib | rfl
      | ok decoded =>
        dsimp only [outcome?, bind, Except.bind]
        rw [unpack_eq]
        cases (packedAt decoded.data _ _ _).foldlM Library.insertNew lib with
        | error x => rfl
        | ok lib' => exact ih lib'

/-! ## Definitions -/

namespace Place

/-- What is read where a keyword ends, if that is the keyword of a definition. -/
def reading? (q : Place) : Option (Except Error (ObjRef × Obj)) :=
  (definition? q).map fun source => (Lookahead.ofBytes source).readDefinition.1

/-- The definition that is read where a keyword ends. -/
def read? (q : Place) : Option (Except Panic (ObjRef × Obj)) := q.reading?.bind outcome?

/-- Where the search for the next keyword begins. -/
def next (q : Place) : Place :=
  if q.read?.isSome then (find? endKeyword q.before q.after).getD q else q

theorem next_length_le (q : Place) : q.next.after.length ≤ q.after.length := by
  unfold next
  split
  · cases hfind : find? endKeyword q.before q.after with
    | none => exact Nat.le_refl _
    | some q' => exact Nat.le_of_lt (find?_length_lt (by decide) hfind)
  · exact Nat.le_refl _

/-- What the definitions from a place on are read as, in order. -/
def defined (p : Place) : List (Except Panic (ObjRef × Obj)) :=
  match _h : find? keyword p.before p.after with
  | none => []
  | some q => q.read?.toList ++ q.next.defined
termination_by p.after.length
decreasing_by exact Nat.lt_of_le_of_lt (next_length_le q) (find?_length_lt (by decide) _h)

theorem defined_eq (p : Place) : p.defined =
    match find? keyword p.before p.after with
    | none => []
    | some q => q.read?.toList ++ q.next.defined := by
  rw [defined]
  split <;> rename_i h <;> rw [h]

/-- The definition that is written behind a place is read there, and then those behind its end. -/
theorem defined_written {before sep after : Bytes} {d : Written} {e : ObjRef × Obj}
    (hsep : ¬ keyword <:+: sep) (hbefore : (sep.reverse ++ before).head?.all Byte.endsToken = true)
    (hread : (Lookahead.ofBytes (d.bytes ++ after)).readDefinition.1 = .ok e) :
    defined ⟨before, sep ++ (d.bytes ++ after)⟩ =
      .ok e :: defined ⟨(sep ++ d.header ++ keyword ++ d.content ++ endKeyword).reverse ++ before,
        d.afterEnd.bytes ++ after⟩ := by
  obtain ⟨q, hfind, hdefinition, hend⟩ := d.found after hsep hbefore
  have hq : q.read? = some (.ok e) := by
    rw [read?, reading?, hdefinition, Option.map_some, hread]
    rfl
  rw [defined_eq]
  dsimp only
  rw [hfind]
  dsimp only
  rw [hq, next, hq, hend]
  rfl

/-- Nothing is read where no header is seen. -/
theorem Headerless.defined {p : Place} (h : p.Headerless) : p.defined = [] := by
  fun_induction Place.defined p with
  | case1 => rfl
  | case2 p q hfind ih =>
    obtain ⟨a, hafter, hbefore, -⟩ := of_find? hfind
    have hnone := h a q.after hafter
    rw [← hbefore] at hnone
    have hq : q.read? = none := by
      rw [read?, reading?, hnone]
      rfl
    have hnext : q.next = q := by
      rw [next, hq]
      rfl
    have hlater : q.Headerless := by
      intro a' b hb
      have hnone := h (a ++ keyword ++ a') b (by rw [hafter, hb]; simp)
      rw [hbefore]
      simpa using hnone
    rw [hq, ih (hnext.symm ▸ hlater)]
    rfl

/-- The trailer dictionary that is read behind a place. -/
def dict? (q : Place) : Option (Except Panic Dict) :=
  match Obj.ofBytes q.after with
  | .ok (.dict d) => some (.ok d)
  | .error (.panic x) => some (.error x)
  | _ => none

/-- The trailer dictionaries from a place on, in order. -/
def trailers (p : Place) : List (Except Panic Dict) :=
  match _h : find? trailerKeyword p.before p.after with
  | none => []
  | some q => q.dict?.toList ++ q.trailers
termination_by p.after.length
decreasing_by exact find?_length_lt (by decide) _h

theorem trailers_eq (p : Place) : p.trailers =
    match find? trailerKeyword p.before p.after with
    | none => []
    | some q => q.dict?.toList ++ q.trailers := by
  rw [trailers]
  split <;> rename_i h <;> rw [h]

theorem trailers_of_last {before after : Bytes} (h : find? trailerKeyword before after = none) :
    trailers ⟨before, after⟩ = [] := by
  rw [trailers_eq, h]

theorem trailers_of_find? {before after : Bytes} {q : Place}
    (h : find? trailerKeyword before after = some q) :
    trailers ⟨before, after⟩ = q.dict?.toList ++ q.trailers := by
  rw [trailers_eq, h]

end Place

section Readings

variable {α : Type} {a : α} {x : Panic} {l : List (Except Panic α)} (P : List α → Prop)

/-- Readings without a panic, the first of which gives `a`. -/
theorem exists_cons_ok_iff :
    (∃ as : List α, .ok a :: l = as.map Except.ok ∧ P as) ↔
      ∃ as : List α, l = as.map Except.ok ∧ P (a :: as) := by
  constructor
  · rintro ⟨_ | ⟨b, as⟩, h, hP⟩
    · cases h
    · obtain ⟨hb, has⟩ := List.cons.inj h
      cases hb
      exact ⟨as, has, hP⟩
  · rintro ⟨as, h, hP⟩
    exact ⟨a :: as, congrArg (Except.ok a :: ·) h, hP⟩

theorem not_exists_cons_error : ¬ ∃ as : List α, .error x :: l = as.map Except.ok ∧ P as := by
  rintro ⟨_ | ⟨b, as⟩, h, -⟩
  · cases h
  · cases h

theorem exists_nil_iff : (∃ as : List α, ([] : List (Except Panic α)) = as.map Except.ok ∧ P as) ↔
    P [] := by
  constructor
  · rintro ⟨as, h, hP⟩
    obtain rfl := List.map_eq_nil_iff.mp h.symm
    exact hP
  · exact fun hP => ⟨[], rfl, hP⟩

end Readings

/-- **The definitions are taken in as they are read**, if none of them ends the scan. -/
theorem definitions_eq_ok_iff {f f' : Found} {p : Place} : definitions f p = .ok f' ↔
    ∃ entries : List (ObjRef × Obj), p.defined = entries.map .ok ∧
      f' = entries.foldl (fun f e => f.add e.1 e.2) f := by
  fun_induction Place.defined p generalizing f with
  | case1 p hfind =>
    rw [definitions_step, hfind, exists_nil_iff]
    exact ⟨fun h => (Except.ok.inj h).symm, fun h => congrArg Except.ok h.symm⟩
  | case2 p q hfind ih =>
    rw [definitions_step, hfind]
    dsimp only
    have hreading : (definition? q).map (fun source => (Lookahead.ofBytes source).readDefinition.1) =
        q.reading? := rfl
    rw [hreading]
    rw [Place.next, Place.read?] at ih ⊢
    generalize q.reading? = reading at ih ⊢
    rcases reading with _ | e | ⟨r, o⟩
    · exact ih
    · cases e with
      | panic x => exact iff_of_false (fun h => by cases h) (not_exists_cons_error _)
      | _ => exact ih
    · generalize Place.find? endKeyword q.before q.after = q' at ih ⊢
      have hcons := exists_cons_ok_iff (a := (r, o)) (l := Place.defined (q'.getD q))
        fun entries => f' = entries.foldl (fun f e => f.add e.1 e.2) f
      cases q' with
      | none => exact ih.trans hcons.symm
      | some q' => exact ih.trans hcons.symm

/-- So are the trailers. -/
theorem trailers_eq_ok_iff {t t' : Dict} {p : Place} : trailers t p = .ok t' ↔
    ∃ dicts : List Dict, p.trailers = dicts.map .ok ∧ t' = dicts.foldl mergeTrailer t := by
  fun_induction Scan.trailers t p with
  | case1 t p hfind =>
    rw [Place.trailers_of_last hfind, exists_nil_iff]
    exact ⟨fun h => (Except.ok.inj h).symm, fun h => congrArg Except.ok h.symm⟩
  | case2 t p q hfind d hread ih =>
    have hdict : q.dict? = some (.ok d) := by rw [Place.dict?, hread]
    rw [Place.trailers_of_find? hfind, hdict]
    exact ih.trans
      (exists_cons_ok_iff (l := q.trailers) fun dicts => t' = dicts.foldl mergeTrailer t).symm
  | case3 t p q hfind x hread =>
    have hdict : q.dict? = some (.error x) := by rw [Place.dict?, hread]
    rw [Place.trailers_of_find? hfind, hdict]
    exact iff_of_false (fun h => by cases h) (not_exists_cons_error _)
  | case4 t p q hfind hread hpanic ih =>
    have hdict : q.dict? = none := by
      rw [Place.dict?]
      split
      · exact absurd ‹_› (hread _)
      · exact absurd ‹_› (hpanic _)
      · rfl
    rw [Place.trailers_of_find? hfind, hdict]
    exact ih

/-! ## What becomes of the lists -/

/-- The type that the dictionary of a stream names. -/
def typed? (type : String) (o : Obj) : Option StreamObj :=
  o.stream?.filter fun s => (s.dict.get? "Type").bind Obj.name? = some type

/-- What a file contains. -/
structure Contents where
  /-- What the definitions are read as. -/
  plain : List (ObjRef × Obj)
  /-- The dictionaries that stand behind the word `trailer`. -/
  trailers : List Dict

namespace Contents

/-- A file contains `c`, and nothing that ends the scan. -/
structure Of (c : Contents) (bytes : Bytes) : Prop where
  plain : (Place.start bytes).defined = c.plain.map .ok
  trailers : (Place.start bytes).trailers = c.trailers.map .ok

/-- The file says what that is. -/
theorem Of.eq {c c' : Contents} {bytes : Bytes} (h : c.Of bytes) (h' : c'.Of bytes) : c = c' := by
  have hinjective {α : Type} {as bs : List α}
      (heq : as.map (Except.ok : α → Except Panic α) = bs.map .ok) : as = bs :=
    List.map_injective_iff.mpr (fun _ _ => Except.ok.inj) heq
  have hplain : c.plain = c'.plain := hinjective (h.plain.symm.trans h'.plain)
  have htrailers : c.trailers = c'.trailers := hinjective (h.trailers.symm.trans h'.trailers)
  cases c
  cases c'
  rw [mk.injEq]
  exact ⟨hplain, htrailers⟩

variable (c : Contents)

/-- The streams of packed objects among the plain ones, in order. -/
def packing : List StreamObj := c.plain.filterMap fun e => typed? "ObjStm" e.2

/-- The trailer. Streams of cross-references have its entries in their dictionaries. -/
def trailer : Dict :=
  ((c.plain.filterMap fun e => typed? "XRef" e.2).map StreamObj.dict ++ c.trailers).foldl
    mergeTrailer []

/-- The library of the plain objects. -/
def library : Library :=
  { (c.plain.foldl (fun f e => f.add e.1 e.2) ⟨.empty, []⟩ : Found).library with trailer := c.trailer }

end Contents

theorem Found.add_eq (f : Found) (r : ObjRef) (o : Obj) : f.add r o =
    ⟨Library.insert { f.library with trailer :=
      ((typed? "XRef" o).map StreamObj.dict).toList.foldl mergeTrailer f.library.trailer } r o,
      (typed? "ObjStm" o).toList ++ f.packed⟩ := by
  unfold Found.add typed?
  cases o.stream? with
  | none => rfl
  | some s =>
    by_cases hpacked : (s.dict.get? "Type").bind Obj.name? = some "ObjStm"
    · simp [hpacked, Option.filter]
    · by_cases htrailer : (s.dict.get? "Type").bind Obj.name? = some "XRef"
      · simp [htrailer, Option.filter]
      · simp [hpacked, htrailer, Option.filter]

section Folding

variable (f : Found) (entries : List (ObjRef × Obj))

theorem Found.find?_foldl_add (r : ObjRef) :
    (entries.foldl (fun f e => f.add e.1 e.2) f).library.find? r =
      (entries.reverse.lookup r).or (f.library.find? r) := by
  induction entries generalizing f with
  | nil => rfl
  | cons e entries ih =>
    rw [List.foldl_cons, ih, Found.find?_add, List.reverse_cons, List.lookup_append,
      Library.lookup_cons, Option.or_assoc]
    split <;> rfl

theorem Found.packed_foldl_add :
    (entries.foldl (fun f e => f.add e.1 e.2) f).packed =
      (entries.filterMap fun e => typed? "ObjStm" e.2).reverse ++ f.packed := by
  induction entries generalizing f with
  | nil => rfl
  | cons e entries ih =>
    rw [List.foldl_cons, ih, Found.add_eq, List.filterMap_cons]
    cases typed? "ObjStm" e.2 <;> simp

theorem Found.trailer_foldl_add :
    (entries.foldl (fun f e => f.add e.1 e.2) f).library.trailer =
      ((entries.filterMap fun e => typed? "XRef" e.2).map StreamObj.dict).foldl mergeTrailer
        f.library.trailer := by
  induction entries generalizing f with
  | nil => rfl
  | cons e entries ih =>
    rw [List.foldl_cons, ih, Found.add_eq, List.filterMap_cons]
    cases typed? "XRef" e.2 <;> rfl

end Folding

namespace Contents

variable {c : Contents} {inflate : Inflater} {lib lib' : Library}

theorem find?_library (c : Contents) (r : ObjRef) : c.library.find? r = c.plain.reverse.lookup r := by
  show (c.plain.foldl (fun f e => f.add e.1 e.2) ⟨.empty, []⟩ : Found).library.find? r = _
  rw [Found.find?_foldl_add]
  simp [Library.find?, Library.empty]

/-- The objects that a stream packs are looked up in order of the streams. -/
theorem lookup_packed (c : Contents) (r : ObjRef) :
    ((c.packing.flatMap (StreamObj.unpacked inflate)).filterMap Packed.object?).lookup r =
      c.packing.findSome? fun s => (s.packed inflate).lookup r := by
  rw [List.filterMap_flatMap, lookup_flatMap]
  rfl

/-- **What a reference leads to**: the last plain object under it or, if there is none, the one in the
first stream that packs an object under it. -/
theorem find?_unpacked (h : unpackAll inflate c.library c.packing = .ok lib) (r : ObjRef) :
    lib.find? r = (c.plain.reverse.lookup r).or
      (c.packing.findSome? fun s => (s.packed inflate).lookup r) := by
  rw [unpackAll_eq] at h
  rw [Library.find?_insertNew h, find?_library, lookup_packed]

theorem trailer_unpacked (h : unpackAll inflate c.library c.packing = .ok lib) :
    lib.trailer = c.trailer := by
  rw [unpackAll_eq] at h
  exact Library.trailer_insertNew h

end Contents

/-- **A file is read as the library of what it contains**, with a root. -/
theorem file_eq_ok_iff {inflate : Inflater} {bytes : Bytes} {lib : Library} :
    file inflate bytes = .ok lib ↔ ∃ (c : Contents) (unpacked : Library), c.Of bytes ∧
      unpackAll inflate c.library c.packing = .ok unpacked ∧ rooted unpacked = .ok lib := by
  have hpacked (entries : List (ObjRef × Obj)) (dicts : List Dict) :
      (entries.foldl (fun f e => f.add e.1 e.2) ⟨.empty, []⟩ : Found).packed.reverse =
        Contents.packing ⟨entries, dicts⟩ := by
    rw [Found.packed_foldl_add, List.append_nil, List.reverse_reverse]
    rfl
  have htrailer (entries : List (ObjRef × Obj)) (dicts : List Dict) :
      dicts.foldl mergeTrailer (entries.foldl (fun f e => f.add e.1 e.2)
        ⟨.empty, []⟩ : Found).library.trailer = Contents.trailer ⟨entries, dicts⟩ := by
    rw [Found.trailer_foldl_add, ← List.foldl_append]
    rfl
  constructor
  · intro h
    obtain ⟨found, trailer, unpacked, hfound, htrailers, hunpacked, hrooted⟩ := file_eq_ok h
    obtain ⟨entries, hentries, rfl⟩ := definitions_eq_ok_iff.mp hfound
    obtain ⟨dicts, hdicts, rfl⟩ := trailers_eq_ok_iff.mp htrailers
    rw [hpacked entries dicts, htrailer entries dicts] at hunpacked
    exact ⟨⟨entries, dicts⟩, unpacked, ⟨hentries, hdicts⟩, hunpacked, hrooted⟩
  · rintro ⟨⟨entries, dicts⟩, unpacked, hc, hunpacked, hrooted⟩
    have hfound := (definitions_eq_ok_iff (f := ⟨.empty, []⟩)).mpr ⟨entries, hc.plain, rfl⟩
    have htrailers : trailers (entries.foldl (fun f e => f.add e.1 e.2)
        ⟨.empty, []⟩ : Found).library.trailer (.start bytes) = .ok (Contents.trailer ⟨entries, dicts⟩) :=
      trailers_eq_ok_iff.mpr ⟨dicts, hc.trailers, (htrailer entries dicts).symm⟩
    rw [Contents.library] at hunpacked
    simp only [file, gather, hfound, htrailers, bind, Except.bind, hpacked entries dicts, hunpacked]
    exact hrooted

/-- A library whose trailer names a dictionary for a root has one. -/
theorem rooted_eq_ok {lib : Library} {root : Obj} (h : lib.trailer.get? "Root" = some root)
    (hdict : (lib.resolve root).dict?.isSome) : rooted lib = .ok lib := by
  have hnull : (lib.resolve root).isNull = false := by
    cases hobject : lib.resolve root with
    | null =>
      rw [hobject] at hdict
      cases hdict
    | _ => rfl
  have hcatalog : lib.catalog?.isSome = true := by
    simp only [Library.catalog?, Library.dict?, Library.get?, h, Option.bind_some, hnull,
      Bool.false_eq_true, if_false, hdict]
  exact if_pos hcatalog

/-- A file with a root in its only trailer is read, if its packed objects are. -/
theorem file_ok_of_root {inflate : Inflater} {bytes u tail : Bytes} {c : Contents}
    {unpacked : Library} {d entries : Dict} (hc : c.Of bytes)
    (hunpacked : unpackAll inflate c.library c.packing = .ok unpacked)
    (hbytes : bytes = u ++ trailerKeyword ++ tail) (hread : Obj.ofBytes tail = .ok (.dict d))
    (hroot : d.get? "Root" = some (.dict entries)) (hclear : ¬ trailerKeyword <:+: tail) :
    file inflate bytes = .ok unpacked := by
  refine file_eq_ok_iff.mpr ⟨c, unpacked, hc, hunpacked, ?_⟩
  have hget : unpacked.trailer.get? "Root" = some (.dict entries) := by
    have htrailers := (trailers_eq_ok_iff (p := .start bytes)
      (t := ((c.plain.filterMap fun e => typed? "XRef" e.2).map StreamObj.dict).foldl mergeTrailer
        [])).mpr ⟨c.trailers, hc.trailers, rfl⟩
    rw [Contents.trailer_unpacked hunpacked, Contents.trailer, List.foldl_append]
    exact get?_trailers_clear (p := .start bytes) hbytes hread hroot hclear htrailers
  exact rooted_eq_ok hget rfl

end Scan

end PdfScene
