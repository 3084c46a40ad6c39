import PdfScene.Font.Read
import PdfScene.Proofs.Font.Assignments
import PdfScene.Proofs.Resource.Remembering

/-!
# Widths of a composite font

The widths are a list of entries of two shapes, a first code with a list of widths and a first and a
last code with one width, and `Spells` says which entries a list of objects is. Reading it through
gives codes what the entries give them, one entry after the other (`assign_eq`), so that the last one
counts (`advance_read`).

A code that an entry gives a width is one that it covers, with an exception. A list is not cut off at
the greatest code: it goes on with code zero, which its first code and the number of its widths do not
lead to. A run is, and that it gives a width to no more than 65536 codes does not matter for codes of
two bytes.
-/

set_option autoImplicit false

namespace PdfScene.Font

open Assignments

/-! ## Entries -/

/-- An entry of the widths of a composite font. -/
inductive WidthEntry where
  /-- Widths from a first code on. -/
  | list (first : Float) (widths : List Float)
  /-- A width for all codes from a first to a last one. -/
  | run (first last width : Float)

namespace WidthEntry

def first : WidthEntry → UInt32
  | list first _ => first.toUInt32
  | run first _ _ => first.toUInt32

/-- The width of a code that an entry covers. -/
def covered? (e : WidthEntry) (code : UInt32) : Option Float :=
  match e with
  | list first widths =>
    if first.toUInt32 ≤ code then widths[code.toNat - first.toUInt32.toNat]? else none
  | run first last width =>
    if first.toUInt32 ≤ code ∧ code ≤ last.toUInt32 then some width else none

/-- A list does not go past the greatest code. -/
def Fits : WidthEntry → Prop
  | list first widths => first.toUInt32.toNat + widths.length ≤ 2 ^ 32
  | run _ _ _ => True

/-- What an entry gives to codes. -/
def pairs : WidthEntry → List (UInt32 × Float)
  | list first widths => consecutive first.toUInt32 widths
  | run first last width =>
    consecutive first.toUInt32 (List.replicate (runLength first.toUInt32 last.toUInt32) width)

/-- The width that an entry gives to a code, the last one if there are several. -/
def given? (e : WidthEntry) (code : UInt32) : Option Float := last? e.pairs code

/-- A run is as long as its codes, or long enough for all codes of two bytes. -/
theorem given?_run (first last width : Float) {code : UInt32} (hcode : code ≤ 0xFFFF) :
    (run first last width).given? code = (run first last width).covered? code := by
  generalize hlow : first.toUInt32 = low
  generalize hhigh : last.toUInt32 = high
  have hlength : runLength low high =
      if high.toNat < low.toNat then 0 else min (high.toNat - low.toNat) 0xFFFF + 1 := by
    rw [runLength]
    simp only [UInt32.lt_iff_toNat_lt]
    split
    case isTrue => rfl
    case isFalse hle => rw [UInt32.toNat_sub_of_le _ _ (UInt32.le_iff_toNat_le.mpr (by omega))]; rfl
  have hfit : low.toNat + (List.replicate (runLength low high) width).length ≤ 2 ^ 32 := by
    have hlow := low.toNat_lt
    have hhigh := high.toNat_lt
    rw [List.length_replicate, hlength]
    split <;> omega
  have hsmall : code.toNat ≤ 0xFFFF := UInt32.le_iff_toNat_le.mp hcode
  have hcovers : (low ≤ code ∧ code.toNat - low.toNat < runLength low high) ↔
      low ≤ code ∧ code ≤ high := by
    rw [hlength]
    simp only [UInt32.le_iff_toNat_le]
    split <;> omega
  rw [given?, pairs, covered?, hlow, hhigh, last?_consecutive_of_le hfit, List.getElem?_replicate,
    ← ite_and]
  simp only [hcovers]

theorem given?_eq {e : WidthEntry} (h : e.Fits) {code : UInt32} (hcode : code ≤ 0xFFFF) :
    e.given? code = e.covered? code := by
  cases e with
  | list first widths => exact last?_consecutive_of_le h code
  | run first last width => exact given?_run first last width hcode

/-- An entry gives no width to a code that it does not cover, unless it goes past the greatest code. -/
theorem given?_only_covered_iff (e : WidthEntry) :
    (∀ code ≤ 0xFFFF, e.covered? code = none → e.given? code = none) ↔ e.Fits ∨ e.first = 0 := by
  constructor
  · intro h
    cases e with
    | run first last width => exact .inl trivial
    | list first widths =>
      by_contra hnot
      obtain ⟨hover, hfirst⟩ := not_or.mp hnot
      have hpos : 0 < first.toUInt32.toNat := Nat.pos_of_ne_zero fun h0 => hfirst (UInt32.toNat_inj.mp h0)
      have hmore : ¬ first.toUInt32.toNat + widths.length ≤ 2 ^ 32 := hover
      have hlt := first.toUInt32.toNat_lt
      have hcovered : (list first widths).covered? 0 = none := by
        rw [covered?, if_neg]
        rw [UInt32.le_iff_toNat_le]
        exact Nat.not_le.mpr hpos
      have hgiven : (last? (consecutive first.toUInt32 widths) 0).isSome := by
        rw [isSome_last?_consecutive, UInt32.toNat_sub]
        show (2 ^ 32 - first.toUInt32.toNat + 0) % 2 ^ 32 < widths.length
        omega
      rw [Option.isSome_iff_ne_none] at hgiven
      exact hgiven (h 0 (by decide) hcovered)
  · rintro (hfits | hzero) code hcode hcovered
    · rw [given?_eq hfits hcode, hcovered]
    · cases e with
      | run first last width => rw [given?_run _ _ _ hcode, hcovered]
      | list first widths =>
        have hzero : first.toUInt32 = 0 := hzero
        rw [covered?, hzero, if_pos (UInt32.zero_le)] at hcovered
        rw [given?, pairs, hzero, ← Option.not_isSome_iff_eq_none, isSome_last?_consecutive]
        rw [List.getElem?_eq_none_iff] at hcovered
        simpa using hcovered

end WidthEntry

/-- The objects that entries are written as, each of which may be behind a reference. -/
inductive Spells (lib : Library) : List Obj → List WidthEntry → Prop where
  | nil : Spells lib [] []
  | list {o o' : Obj} {items rest : List Obj} {first : Float} {widths : List Float}
      {es : List WidthEntry} (hfirst : (lib.resolve o).num? = some first)
      (hitems : lib.resolve o' = .array items)
      (hwidths : items.map (fun item => (lib.resolve item).num?) = widths.map some)
      (hrest : Spells lib rest es) : Spells lib (o :: o' :: rest) (.list first widths :: es)
  | run {o o' o'' : Obj} {rest : List Obj} {first last width : Float} {es : List WidthEntry}
      (hfirst : (lib.resolve o).num? = some first) (hlast : lib.resolve o' = .num last)
      (hwidth : (lib.resolve o'').num? = some width) (hrest : Spells lib rest es) :
      Spells lib (o :: o' :: o'' :: rest) (.run first last width :: es)

/-! ## Reading them -/

theorem assignList_eq (lib : Library) (table : Widths) (code : UInt32) {items : List Obj}
    {widths : List Float}
    (h : items.map (fun item => (lib.resolve item).num?) = widths.map some) :
    assignList lib table code items = table.insertMany (consecutive code widths) := by
  induction items generalizing table code widths with
  | nil =>
    obtain rfl : widths = [] := List.map_eq_nil_iff.mp h.symm
    simp [assignList, consecutive]
  | cons o items ih =>
    cases widths with
    | nil => cases h
    | cons width widths =>
      obtain ⟨hfirst, hrest⟩ := List.cons_eq_cons.mp h
      dsimp only at hfirst
      rw [assignList, hfirst, consecutive, Std.HashMap.insertMany_cons]
      exact ih _ _ hrest

theorem assignRun_eq (table : Widths) (code : UInt32) (width : Float) (count : Nat) :
    assignRun table code width count =
      table.insertMany (consecutive code (List.replicate count width)) := by
  induction count generalizing table code with
  | zero => simp [assignRun, consecutive]
  | succ count ih =>
    rw [assignRun, ih, List.replicate_succ, consecutive, Std.HashMap.insertMany_cons]

/-- The table of a list of entries has what they give to codes, in order. -/
theorem assign_eq {lib : Library} {items : List Obj} {es : List WidthEntry} (h : Spells lib items es)
    (table : Widths) : assign lib table items = table.insertMany (es.flatMap WidthEntry.pairs) := by
  induction h generalizing table with
  | nil => simp [assign]
  | list hfirst hitems hwidths _ ih =>
    rw [assign]
    simp only [hfirst, hitems]
    rw [ih, assignList_eq lib table _ hwidths, List.flatMap_cons, Std.HashMap.insertMany_append]
    rfl
  | run hfirst hlast hwidth _ ih =>
    rw [assign]
    simp only [hfirst, hlast, hwidth]
    rw [ih, assignRun_eq, List.flatMap_cons, Std.HashMap.insertMany_append]
    rfl

/-- Nothing but the texts depends on what is remembered. A font is read unless decoding its texts is a
panic. -/
theorem read_cases (lib : Library) (name : String) (d : Dict) (m : Memory) :
    (∃ texts, (read lib name d m).1 = .ok (ofDict lib name d texts)) ∨
      ∃ s p, lib.stream? d "ToUnicode" = some s ∧ s.decode lib.inflate = .error (.panic p) ∧
        (read lib name d m).1 = .error p := by
  rw [read]
  cases htexts : lib.stream? d "ToUnicode" with
  | none => exact .inl ⟨none, rfl⟩
  | some s =>
    dsimp only
    rcases hdecode : (Memory.decode lib.inflate s m).1 with p | decoded | decoded
    · rw [Run.bind_of_error hdecode]
      rcases Memory.decode_cases lib.inflate s m with ⟨-, heq⟩ | ⟨r, d, -, -, heq⟩
      · rw [heq] at hdecode
        exact .inr ⟨s, p, rfl, Panic.apart_eq_error_iff.mp hdecode, rfl⟩
      · rw [heq] at hdecode
        cases hdecode
    · rw [Run.bind_of_ok hdecode]
      exact .inl ⟨none, rfl⟩
    · rw [Run.bind_of_ok hdecode]
      exact .inl ⟨some (CMap.ofBytes decoded.data), rfl⟩

/-- The table and the other width of a composite font whose widths are a list of entries. -/
theorem ofDict_composite {lib : Library} {d descendant : Dict} {items : List Obj} {es : List WidthEntry}
    (hkind : lib.name? d "Subtype" = some "Type0") (hdescendant : descendant? lib d = some descendant)
    (hitems : lib.array? descendant "W" = some items) (hspells : Spells lib items es) (name : String)
    (texts : Option CMap) :
    (ofDict lib name d texts).kind.isComposite = true ∧
      (ofDict lib name d texts).cidWidths =
        Std.HashMap.insertMany ∅ (es.flatMap WidthEntry.pairs) ∧
      (ofDict lib name d texts).defaultCidWidth = (lib.num? descendant "DW").getD 1000 := by
  have hcomposite : (FontKind.ofName "Type0").isComposite = true := rfl
  have hwidths : readComposite lib d =
      (Std.HashMap.insertMany ∅ (es.flatMap WidthEntry.pairs), (lib.num? descendant "DW").getD 1000) := by
    rw [readComposite, hdescendant]
    dsimp only
    rw [hitems, Option.getD_some, assign_eq hspells]
  rw [ofDict, hkind, Option.getD_some]
  dsimp only
  rw [if_pos hcomposite, hwidths]
  exact ⟨hcomposite, rfl, rfl⟩

/-- **Which width a code has.** A composite font is read unless decoding its texts is a panic. In it a
code of two bytes has the width of the last entry
that gives it one, and if there is none, the width of all other codes. If every entry fits, that is the
last entry that covers the code. An entry gives widths to no codes but those that it covers if and only
if it fits or starts with code zero. -/
theorem advance_read {lib : Library} {d descendant : Dict} {items : List Obj} {es : List WidthEntry}
    (hkind : lib.name? d "Subtype" = some "Type0") (hdescendant : descendant? lib d = some descendant)
    (hitems : lib.array? descendant "W" = some items) (hspells : Spells lib items es) (name : String)
    (m : Memory) {code : UInt32} (hcode : code ≤ 0xFFFF) :
    ((∃ font, (read lib name d m).1 = .ok font) ∨
        ∃ s p, lib.stream? d "ToUnicode" = some s ∧ s.decode lib.inflate = .error (.panic p)) ∧
      (∀ font, (read lib name d m).1 = .ok font →
        font.advance code = ((es.reverse.findSome? fun e => e.given? code).getD
            ((lib.num? descendant "DW").getD 1000)) / 1000 ∧
          ((∀ e ∈ es, e.Fits) → font.advance code =
            ((es.reverse.findSome? fun e => e.covered? code).getD
              ((lib.num? descendant "DW").getD 1000)) / 1000)) ∧
      ∀ e ∈ es, (∀ code ≤ 0xFFFF, e.covered? code = none → e.given? code = none) ↔
        e.Fits ∨ e.first = 0 := by
  have hcases := read_cases lib name d m
  refine ⟨hcases.imp (fun ⟨_, hread⟩ => ⟨_, hread⟩) fun ⟨s, p, htexts, hdecode, _⟩ =>
    ⟨s, p, htexts, hdecode⟩, ?_, fun e _ => e.given?_only_covered_iff⟩
  intro font hfont
  have hadvance : font.advance code = ((es.reverse.findSome? fun e => e.given? code).getD
      ((lib.num? descendant "DW").getD 1000)) / 1000 := by
    rcases hcases with ⟨texts, hread⟩ | ⟨s, p, -, -, hread⟩
    · cases hfont.symm.trans hread
      obtain ⟨hcomposite, htable, hother⟩ :=
        ofDict_composite hkind hdescendant hitems hspells name texts
      rw [advance, if_pos hcomposite, htable, hother, Std.HashMap.getD_eq_getD_getElem?,
        getElem?_insertMany, last?_flatMap, Std.HashMap.getElem?_empty, Option.or_none]
      rfl
    · cases hfont.symm.trans hread
  refine ⟨hadvance, fun hfits => ?_⟩
  have hsame : (es.reverse.findSome? fun e => e.given? code) =
      es.reverse.findSome? fun e => e.covered? code := by
    apply findSome?_congr
    intro e he
    exact WidthEntry.given?_eq (hfits e (List.mem_reverse.mp he)) hcode
  rw [hadvance, hsame]

/-- A font with two widths from the greatest code on. -/
def passing : Dict :=
  [("Subtype", .name "Type0"), ("DescendantFonts",
    .array [.dict [("W", .array [.num 4294967295, .array [.num 500, .num 600]])]])]

/-- The second width is that of code zero, which the entry does not cover. -/
theorem advance_read_passing :
    let descendant : Dict := [("W", .array [.num 4294967295, .array [.num 500, .num 600]])]
    let es : List WidthEntry := [.list 4294967295 [500, 600]]
    Library.empty.name? passing "Subtype" = some "Type0" ∧
      descendant? .empty passing = some descendant ∧
      Library.empty.array? descendant "W" = some [.num 4294967295, .array [.num 500, .num 600]] ∧
      Spells .empty [.num 4294967295, .array [.num 500, .num 600]] es ∧
      (∃ font, (read .empty "F" passing (.initial .empty 1)).1 = .ok font ∧
        font.advance 0 = 600 / 1000) ∧
      es.reverse.findSome? (fun e => e.covered? 0) = none := by
  intro descendant es
  have hkind : Library.empty.name? passing "Subtype" = some "Type0" := rfl
  have hdescendant : descendant? .empty passing = some descendant := rfl
  have hitems : Library.empty.array? descendant "W" =
      some [.num 4294967295, .array [.num 500, .num 600]] := rfl
  have hspells : Spells .empty [.num 4294967295, .array [.num 500, .num 600]] es :=
    .list rfl rfl rfl .nil
  have hfirst : (4294967295 : Float).toUInt32 = 0xFFFFFFFF := by decide +kernel
  have hgiven : (WidthEntry.list 4294967295 [500, 600]).given? 0 = some 600 := by
    simp [WidthEntry.given?, WidthEntry.pairs, consecutive, last?, hfirst]
  have hcovered : (WidthEntry.list 4294967295 [500, 600]).covered? 0 = none := by
    simp [WidthEntry.covered?, hfirst]
  refine ⟨hkind, hdescendant, hitems, hspells, ?_, ?_⟩
  · have hread : (read .empty "F" passing (.initial .empty 1)).1 =
        .ok (ofDict .empty "F" passing none) := rfl
    have hcode : (0 : UInt32) ≤ 0xFFFF := by decide
    refine ⟨_, hread, ?_⟩
    rw [((advance_read hkind hdescendant hitems hspells "F" _ hcode).2.1 _ hread).1]
    simp [es, hgiven]
  · simp [es, hcovered]

end PdfScene.Font
