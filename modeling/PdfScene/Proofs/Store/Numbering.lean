import Mathlib
import PdfScene.Proofs.Resource.Remembering
import PdfScene.Proofs.Store.Contents
import PdfScene.Proofs.Store.Recovery
import PdfScene.Resource.Scope

/-!
# Numbers for what has none

An image that stands in content has no number, nor has a form that is defined under no reference, and
each is given one (`Memory.issueId`). The numbers start behind the greatest of an object
(`Library.Counted`), so they are told apart from those of the objects and from one another as long as
there are any left. Behind the last number of all they start again at zero, and behind an object that
has the last number they start with that number itself. `Scan.file_numbering` says how many can be
issued for a file before one is an object's.
-/

set_option autoImplicit false

namespace PdfScene

/-! ## The first number behind the objects -/

namespace Library

/-- The next number is the one after that of an object, and after those of all objects. The greatest
number has none after it and stands for that itself. -/
structure Counted (lib : Library) : Prop where
  above : ∀ {r o}, lib.find? r = some o → min (r.num.toNat + 1) 0xFFFFFFFF ≤ lib.nextId.toNat
  attained : lib.nextId = 1 ∨
    ∃ r o, lib.find? r = some o ∧ lib.nextId.toNat = min (r.num.toNat + 1) 0xFFFFFFFF

variable {lib : Library}

theorem toNat_succ (n : UInt32) : (succ n).toNat = min (n.toNat + 1) 0xFFFFFFFF := by
  have hn := n.toNat_lt
  unfold succ
  split
  · subst n
    rfl
  · rename_i hne
    have hless : n.toNat ≠ 0xFFFFFFFF := fun heq => hne (UInt32.toNat_inj.mp heq)
    rw [UInt32.toNat_add]
    simp only [UInt32.reduceToNat]
    omega

theorem Counted.empty : Library.empty.Counted where
  above h := by simp [Library.empty, find?] at h
  attained := .inl rfl

theorem Counted.insert (h : lib.Counted) (r : ObjRef) (o : Obj) : (lib.insert r o).Counted := by
  have hfound : (lib.insert r o).find? r = some o := find?_insert.trans (if_pos rfl)
  have hbound := lib.nextId.toNat_lt
  by_cases hle : lib.nextId ≤ r.num
  · have hnext : (lib.insert r o).nextId = succ r.num := if_pos hle
    rw [UInt32.le_iff_toNat_le] at hle
    refine ⟨fun {r' o'} hfind => ?_, .inr ⟨r, o, hfound, by rw [hnext, toNat_succ]⟩⟩
    rw [hnext, toNat_succ]
    rw [find?_insert] at hfind
    split at hfind
    · subst r'
      exact Nat.le_refl _
    · have := h.above hfind
      omega
  · have hnext : (lib.insert r o).nextId = lib.nextId := if_neg hle
    rw [UInt32.le_iff_toNat_le] at hle
    refine ⟨fun {r' o'} hfind => ?_, ?_⟩
    · rw [hnext]
      rw [find?_insert] at hfind
      split at hfind
      · subst r'
        omega
      · exact h.above hfind
    · rw [hnext]
      refine h.attained.imp id ?_
      rintro ⟨r', o', hfind, heq⟩
      by_cases hr : r = r'
      · exact ⟨r, o, hfound, hr ▸ heq⟩
      · exact ⟨r', o', by rw [find?_insert, if_neg hr, hfind], heq⟩

end Library

namespace Scan

/-- What holds of the library of no objects, and of a library with one more object and with another
trailer, holds of every library that is read from a file. -/
theorem file_induction {P : Library → Prop} (hempty : P .empty)
    (hinsert : ∀ lib r o, P lib → P (lib.insert r o))
    (htrailer : ∀ lib trailer, P lib → P { lib with trailer }) {inflate : Inflater} {bytes : Bytes}
    {lib : Library} (h : file inflate bytes = .ok lib) : P lib := by
  have hadd : ∀ (f : Found) (r : ObjRef) (o : Obj), P f.library → P (f.add r o).library := by
    intro f r o hf
    rw [Found.add_eq]
    exact hinsert _ _ _ (htrailer _ _ hf)
  have hdefinitions : ∀ (f f' : Found) (p : Place), P f.library → definitions f p = .ok f' →
      P f'.library := by
    intro f f' p hf hfound
    fun_induction definitions f p with
    | case1 =>
      cases hfound
      exact hf
    | case2 f p q _ r o _ _ _ ih => exact ih (hadd f r o hf) hfound
    | case3 f p q _ r o _ _ ih => exact ih (hadd f r o hf) hfound
    | case4 => cases hfound
    | case5 => rename_i ih; exact ih hf hfound
  have hunpack : ∀ (data : Bytes) (first : Nat) (lib lib' : Library) (header : Lookahead)
      (count : Nat), P lib → unpack data first lib header count = .ok lib' → P lib' := by
    intro data first lib lib' header count hlib hunpacked
    fun_induction unpack data first lib header count with
    | case1 =>
      cases hunpacked
      exact hlib
    | case2 => cases hunpacked
    | case3 =>
      cases hunpacked
      exact hlib
    | case4 => rename_i ih; exact ih hlib hunpacked
    | case5 => rename_i ih; exact ih (hinsert _ _ _ hlib) hunpacked
    | case6 => cases hunpacked
    | case7 => rename_i ih; exact ih hlib hunpacked
  have hunpackAll : ∀ (packed : List StreamObj) (lib lib' : Library), P lib →
      unpackAll inflate lib packed = .ok lib' → P lib' := by
    intro packed lib lib' hlib hunpacked
    fun_induction unpackAll inflate lib packed with
    | case1 =>
      cases hunpacked
      exact hlib
    | case2 =>
      rename_i hs ih
      obtain ⟨data, first, header, count, hstream⟩ := unpackStream_eq_ok hs
      exact ih (hunpack _ _ _ _ _ _ hlib hstream) hunpacked
    | case3 => cases hunpacked
    | case4 => rename_i ih; exact ih hlib hunpacked
  obtain ⟨found, trailer, unpacked, hfound, -, hunpacked, hrooted⟩ := file_eq_ok h
  have hobjects : P unpacked :=
    hunpackAll _ _ _ (htrailer _ _ (hdefinitions _ _ _ hempty hfound)) hunpacked
  unfold rooted at hrooted
  split at hrooted
  · cases hrooted
    exact hobjects
  · split at hrooted
    · cases hrooted
      exact htrailer _ _ hobjects
    · cases hrooted

theorem file_counted {inflate : Inflater} {bytes : Bytes} {lib : Library}
    (h : file inflate bytes = .ok lib) : lib.Counted :=
  file_induction .empty (fun _ r o hlib => hlib.insert r o)
    (fun _ _ hlib => ⟨hlib.above, hlib.attained⟩) h

end Scan

/-! ## Who is given a number -/

/-- A computation that gives no number to anything. -/
def Run.Unnumbered {α : Type} (x : Run α) : Prop := ∀ m, (x m).2.nextId = m.nextId

namespace Run.Unnumbered

variable {α β : Type}

theorem pure (a : α) : Unnumbered (pure a) := fun _ => rfl

theorem bind {x : Run α} {f : α → Run β} (hx : Unnumbered x) (hf : ∀ a, Unnumbered (f a)) :
    Unnumbered (x >>= f) := by
  intro m
  cases h : (x m).1 with
  | ok a =>
    rw [bind_of_ok h]
    exact (hf a (x m).2).trans (hx m)
  | error p =>
    rw [bind_of_error h]
    exact hx m

end Run.Unnumbered

theorem Memory.decode_unnumbered (inflate : Inflater) (s : StreamObj) :
    (Memory.decode inflate s).Unnumbered := by
  intro m
  rcases Memory.decode_cases inflate s m with ⟨-, heq⟩ | ⟨r, d, -, -, heq⟩ <;> rw [heq]

/-- What is read by resolving and decoding alone is given no number. -/
theorem Run.Unnumbered.compositional (lib : Library) :
    Compositional lib (fun _ => True) Unnumbered where
  null := trivial
  object _ _ := trivial
  item _ _ := trivial
  entry _ _ _ := trivial
  pure := .pure
  bind := .bind
  decode _ := Memory.decode_unnumbered lib.inflate _

/-- A name of a colour space is looked up without a number being given. -/
theorem Scopes.colorSpace?_unnumbered (lib : Library) (scopes : Scopes) (name : String) :
    (scopes.colorSpace? lib name).Unnumbered :=
  (Run.Unnumbered.compositional lib).find fun _ _ =>
    (Run.Unnumbered.compositional lib).colorSpace? fun _ _ => trivial

namespace Image

variable (lib : Library) {named : String → Run (Option ColorSpace)}

theorem readSpace_unnumbered (d : Dict) (hnamed : ∀ name, (named name).Unnumbered) :
    (readSpace lib d named).Unnumbered := by
  unfold readSpace
  split
  · rename_i name _
    cases ColorSpace.ofDeviceName? name with
    | some space => exact .pure _
    | none =>
      apply (hnamed name).bind
      rintro (_ | space) <;> exact .pure _
  · exact ((Run.Unnumbered.compositional lib).colorSpace trivial).bind fun _ => .pure _
  · exact .pure _

/-- An image that has a reference goes by its number, and one that has none is given the next number
there is. One that is refused takes no number, nor does one that a panic keeps from being read. -/
theorem read_numbered (s : StreamObj) (hnamed : ∀ name, (named name).Unnumbered) (m : Memory) :
    match s.ref, (read lib s named m).1 with
    | none, .ok (.ok image) =>
      image.id = m.nextId ∧ (read lib s named m).2.nextId = m.nextId + 1
    | some r, .ok (.ok image) => image.id = r.num ∧ (read lib s named m).2.nextId = m.nextId
    | _, _ => (read lib s named m).2.nextId = m.nextId := by
  have hspace := readSpace_unnumbered lib s.dict hnamed m
  unfold read
  dsimp only
  cases checkSize _ _ with
  | error e => cases s.ref <;> exact rfl
  | ok _ =>
    cases hstencil : (lib.bool? s.dict "ImageMask").getD false
    case true => cases href : s.ref <;> exact ⟨rfl, rfl⟩
    case false =>
      rcases hread : (readSpace lib s.dict named m).1 with p | space
      · have hmap := Run.map_of_error (g := some) hread
        simp only [Bool.false_eq_true, if_false]
        rw [Run.bind_of_error (congrArg Prod.fst hmap), hmap]
        cases href : s.ref <;> exact hspace
      · simp only [Bool.false_eq_true, if_false]
        rw [Run.bind_of_eq (Run.map_of_ok hread)]
        cases href : s.ref
        · exact ⟨hspace, congrArg (· + 1) hspace⟩
        · exact ⟨rfl, hspace⟩

end Image

/-- A form that has a reference goes by its number, and one that has none is given the next number
there is. -/
theorem Form.read_numbered (lib : Library) (s : StreamObj) (m : Memory) :
    ∃ form, (Form.read lib s m).1 = .ok form ∧
      match s.ref with
      | none => form.id = m.nextId ∧ (Form.read lib s m).2.nextId = m.nextId + 1
      | some r => form.id = r.num ∧ (Form.read lib s m).2.nextId = m.nextId := by
  unfold Form.read
  cases lib.resources? s.dict <;> cases s.ref <;> exact ⟨_, rfl, rfl, rfl⟩

/-! ## The numbers that are given -/

/-- Work on a library from one memory to another, and the numbers that it gives: each at a call for
one, to an image or form without a reference, and to nothing else. -/
inductive Numbering (lib : Library) : Memory → List UInt32 → Memory → Prop
  | done {m : Memory} : Numbering lib m [] m
  | issue {m m' : Memory} {ids : List UInt32} {id : UInt32}
      (hissue : (Memory.issueId m).1 = .ok id) :
      Numbering lib (Memory.issueId m).2 ids m' → Numbering lib m (id :: ids) m'
  | image {m m' : Memory} {ids : List UInt32} {s : StreamObj} {image : Image}
      {named : String → Run (Option ColorSpace)} (href : s.ref = none)
      (hnamed : ∀ name, (named name).Unnumbered)
      (hread : (Image.read lib s named m).1 = .ok (.ok image)) :
      Numbering lib (Image.read lib s named m).2 ids m' → Numbering lib m (image.id :: ids) m'
  | form {m m' : Memory} {ids : List UInt32} {s : StreamObj} {form : Form} (href : s.ref = none)
      (hread : (Form.read lib s m).1 = .ok form) :
      Numbering lib (Form.read lib s m).2 ids m' → Numbering lib m (form.id :: ids) m'
  | other {m m' : Memory} {ids : List UInt32} {α : Type} {x : Run α} (hx : x.Unnumbered) :
      Numbering lib (x m).2 ids m' → Numbering lib m ids m'

namespace Numbering

variable {lib : Library} {m m' : Memory} {ids : List UInt32}

/-- The numbers that are given follow one another. -/
theorem eq_map (h : Numbering lib m ids m') :
    ids = (List.range ids.length).map fun i => m.nextId + UInt32.ofNat i := by
  -- one more number in front, after which the counter stands one further
  have hcons : ∀ {next : UInt32} {ids : List UInt32},
      ids = ((List.range ids.length).map fun i => next + 1 + UInt32.ofNat i) →
      next :: ids = (List.range (next :: ids).length).map fun i => next + UInt32.ofNat i := by
    intro next ids hids
    rw [List.length_cons, List.range_succ_eq_map, List.map_cons, List.map_map]
    congr 1
    · exact (UInt32.add_zero next).symm
    · refine hids.trans (List.map_congr_left fun i _ => ?_)
      simp only [Function.comp, Nat.succ_eq_add_one, UInt32.ofNat_add, UInt32.add_assoc]
      rw [UInt32.add_comm (UInt32.ofNat i)]
      rfl
  induction h with
  | done => rfl
  | issue hissue _ ih =>
    cases hissue
    exact hcons ih
  | @image m _ _ s _ _ href hnamed hread _ ih =>
    have hnumbered := Image.read_numbered lib s hnamed m
    rw [href, hread] at hnumbered
    obtain ⟨hid, hnext⟩ := hnumbered
    rw [hnext] at ih
    rw [hid]
    exact hcons ih
  | @form m _ _ s _ href hread _ ih =>
    obtain ⟨form, hform, hnumbered⟩ := Form.read_numbered lib s m
    cases hread.symm.trans hform
    rw [href] at hnumbered
    obtain ⟨hid, hnext⟩ := hnumbered
    rw [hnext] at ih
    rw [hid]
    exact hcons ih
  | other hx _ ih => rwa [hx _] at ih

theorem mem_iff (h : Numbering lib m ids m') (id : UInt32) :
    id ∈ ids ↔ ∃ i < ids.length, id.toNat = (m.nextId.toNat + i) % 2 ^ 32 := by
  have hnumber : ∀ i, (m.nextId + UInt32.ofNat i).toNat = (m.nextId.toNat + i) % 2 ^ 32 := by
    intro i
    rw [UInt32.toNat_add, UInt32.toNat_ofNat', Nat.add_mod_mod]
  rw [h.eq_map, List.mem_map, List.length_map, List.length_range]
  constructor
  · rintro ⟨i, hi, rfl⟩
    exact ⟨i, List.mem_range.mp hi, hnumber i⟩
  · rintro ⟨i, hi, hid⟩
    exact ⟨i, List.mem_range.mpr hi, UInt32.toNat_inj.mp ((hnumber i).trans hid.symm)⟩

/-- No number is given twice before all have been given. -/
theorem nodup (h : Numbering lib m ids m') (hlength : ids.length ≤ 2 ^ 32) : ids.Nodup := by
  rw [h.eq_map]
  refine List.nodup_range.map_on ?_
  intro i hi j hj heq
  have hsame := congrArg UInt32.toNat heq
  rw [UInt32.toNat_add, UInt32.toNat_add, UInt32.toNat_ofNat', UInt32.toNat_ofNat'] at hsame
  rw [List.mem_range] at hi hj
  omega

end Numbering

namespace Scan

variable {inflate : Inflater} {bytes : Bytes} {lib : Library} {capacity : Nat} {m' : Memory}
  {ids : List UInt32}

/-- **How many numbers can be given for a file before one is an object's.** The numbers that are given
are told apart. They are told apart from those of all objects, as long as any are given, if and only if
no object has the last number of all and they end before they have come around to the least that an
object has: there are so many between the greatest and the least. -/
theorem file_numbering (h : file inflate bytes = .ok lib)
    (hrun : Numbering lib (.initial lib capacity) ids m') (hlength : ids.length ≤ 2 ^ 32) :
    ids.Nodup ∧
      ((∀ id ∈ ids, ∀ r o, lib.find? r = some o → r.num ≠ id) ↔
        ids = [] ∨ ∀ r o, lib.find? r = some o → r.num ≠ 0xFFFFFFFF ∧
          ∀ s p, lib.find? s = some p → s.num.toNat + 1 + ids.length ≤ r.num.toNat + 2 ^ 32) := by
  refine ⟨hrun.nodup hlength, ?_⟩
  have hcounted := file_counted h
  have hbound := lib.nextId.toNat_lt
  constructor
  · intro hfresh
    refine or_iff_not_imp_left.mpr fun hne => ?_
    have hpos : 0 < ids.length := List.length_pos_iff.mpr hne
    -- no object has the number at any place in the row of those given
    have hapart : ∀ r o, lib.find? r = some o → ∀ i < ids.length,
        r.num.toNat ≠ (lib.nextId.toNat + i) % 2 ^ 32 := by
      intro r o hr i hi heq
      exact hfresh r.num ((hrun.mem_iff _).mpr ⟨i, hi, heq⟩) r o hr rfl
    have hnotLast : ∀ r o, lib.find? r = some o → r.num.toNat ≠ 0xFFFFFFFF := by
      intro r o hr heq
      have habove := hcounted.above hr
      exact hapart r o hr 0 hpos (by omega)
    intro r o hr
    refine ⟨fun heq => hnotLast r o hr (heq ▸ rfl), fun s p hs => ?_⟩
    have hsne := hnotLast s p hs
    have hsbound := s.num.toNat_lt
    have hsabove := hcounted.above hs
    have habove := hcounted.above hr
    have hrbound := r.num.toNat_lt
    by_contra hlt
    exact hapart r o hr (r.num.toNat + 2 ^ 32 - lib.nextId.toNat) (by omega) (by omega)
  · rintro (rfl | hgap) id hid r o hr heq
    · exact absurd hid List.not_mem_nil
    · obtain ⟨i, hi, hvalue⟩ := (hrun.mem_iff id).mp hid
      obtain ⟨hne, hleast⟩ := hgap r o hr
      rw [← heq] at hvalue
      have hvalue : r.num.toNat = (lib.nextId.toNat + i) % 2 ^ 32 := hvalue
      have habove := hcounted.above hr
      have hrbound := r.num.toNat_lt
      have hrne : r.num.toNat ≠ 0xFFFFFFFF := fun heq => hne (UInt32.toNat_inj.mp heq)
      rcases hcounted.attained with hone | ⟨s, p, hs, hnext⟩
      · rw [hone] at hvalue habove
        have : (1 : UInt32).toNat = 1 := rfl
        have := hleast r o hr
        omega
      · have := hleast s p hs
        omega

open Layout in
/-- A file with an object that has the last number of all. -/
theorem file_oversized : ∃ lib, file .none oversized.bytes = .ok lib ∧
    lib.find? ⟨0xFFFFFFFF, 1⟩ = some (.bool true) := by
  have hread : Obj.ofBytes oversized.trailer =
      .ok (.dict [("Root", .dict [("Pages", .dict [("Type", .name "Pages")])])]) := by
    cbv
  obtain ⟨trailer, htrailers⟩ := (unbroken_of_single oversized_readable (by decide +kernel)
    (by decide +kernel)).trailers_ok (t := []) (p := .start oversized.bytes)
  have hroot : trailer.get? "Root" = some (.dict [("Pages", .dict [("Type", .name "Pages")])]) :=
    get?_trailers_clear (u := textOf oversized.definitions) (by decide +kernel) hread rfl
      (by decide +kernel) htrailers
  have hfile : file .none oversized.bytes = rooted _ :=
    file_eq definitions_oversized rfl htrailers
  rw [rooted_eq_ok hroot rfl] at hfile
  refine ⟨_, hfile, ?_⟩
  rw [file_find? definitions_oversized rfl hfile, Found.find?_add]
  exact if_pos (by decide +kernel)

/-- An image of one sample that stands in content, in a colour space that its content names. -/
def namedSample : StreamObj :=
  ⟨[("Width", .num 1), ("Height", .num 1), ("ColorSpace", .name "Tone")], [0], none⟩

open Layout in
/-- Behind an object that has the last number, the first number given is that of the object. It is
given to the image that is read first, and the next one to the form that is read then. -/
theorem file_numbering_oversized : ∃ lib image form m₁ m₂,
    file .none oversized.bytes = .ok lib ∧
    Image.read lib namedSample (fun name => Scopes.colorSpace? lib name []) (.initial lib 1) =
      (.ok (.ok image), m₁) ∧
    Form.read lib ⟨[], [], none⟩ m₁ = (.ok form, m₂) ∧
    Numbering lib (.initial lib 1) [image.id, form.id] m₂ ∧ [image.id, form.id].Nodup ∧
    ¬ ∀ id ∈ [image.id, form.id], ∀ r o, lib.find? r = some o → r.num ≠ id := by
  obtain ⟨lib, hfile, hfind⟩ := file_oversized
  obtain ⟨image, m₁, himage⟩ : ∃ image m₁, Image.read lib namedSample
      (fun name => Scopes.colorSpace? lib name []) (.initial lib 1) = (.ok (.ok image), m₁) := by
    have hone : Image.checkSize (floatToInt 1) (floatToInt 1) = .ok () := by decide +kernel
    unfold Image.read
    dsimp only
    rw [show (lib.int? namedSample.dict "Width").getD 0 = floatToInt 1 from rfl,
      show (lib.int? namedSample.dict "Height").getD 0 = floatToInt 1 from rfl, hone]
    exact ⟨_, _, rfl⟩
  obtain ⟨form, m₂, hform⟩ : ∃ form m₂, Form.read lib ⟨[], [], none⟩ m₁ = (.ok form, m₂) :=
    ⟨_, _, rfl⟩
  have hrun : Numbering lib (.initial lib 1) [image.id, form.id] m₂ := by
    refine .image rfl (Scopes.colorSpace?_unnumbered lib []) (congrArg Prod.fst himage) ?_
    rw [himage]
    refine .form rfl (congrArg Prod.fst hform) ?_
    rw [hform]
    exact .done
  obtain ⟨hnodup, hfresh⟩ := file_numbering hfile hrun (Nat.le_add_left 2 _)
  refine ⟨lib, image, form, m₁, m₂, hfile, himage, hform, hrun, hnodup, fun h => ?_⟩
  rcases hfresh.mp h with hnone | hgap
  · cases hnone
  · exact (hgap ⟨0xFFFFFFFF, 1⟩ _ hfind).1 rfl

end Scan

end PdfScene
