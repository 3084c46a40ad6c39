import PdfScene.Proofs.Font.Sections
import PdfScene.Proofs.Number.BigEndian

/-!
# What a character map says

Sections with pairs and sections with ranges follow one another, between tokens that end no section.
The entries of them all, taken in order, are the entries of the map (`entriesOf`), and where several
give a text to a code, the last one counts (`lookup?_ofBytes`).

What an entry gives to codes is what it covers (`Entry.covered?`), with one exception. A list whose last
code is the greatest there is and that has more texts than codes goes on with code zero
(`Entry.Overruns`).
-/

set_option autoImplicit false

namespace PdfScene.CMap

open Assignments

/-! ## Texts that advance -/

/-- The character that is `k` places behind another, or the last one on the way there if a place on
the way holds none. -/
def charBehind (c : Char) (k : Nat) : Char :=
  Char.ofNat (min (c.toNat + k) (if c.toNat < 0xD800 then 0xD7FF else 0x10FFFF))

/-- The text whose last character is `k` places further. -/
def textBehind (text : List Char) (k : Nat) : List Char :=
  text.dropLast ++ (text.getLast?.map fun c => charBehind c k).toList

/-- The next character is one place further, unless there is none. -/
theorem toNat_nextChar (c : Char) :
    (nextChar c).toNat = min (c.toNat + 1) (if c.toNat < 0xD800 then 0xD7FF else 0x10FFFF) := by
  have hvalid : c.toNat < 0xD800 ∨ (0xDFFF < c.toNat ∧ c.toNat < 0x110000) := c.valid
  rw [nextChar]
  by_cases hnext : c.toNat + 1 < 0xD800 ∨ (0xDFFF < c.toNat + 1 ∧ c.toNat + 1 < 0x110000)
  · rw [if_pos hnext, Char.toNat_ofNat, if_pos hnext]
    split <;> omega
  · rw [if_neg hnext]
    split <;> omega

theorem toNat_charBehind (c : Char) (k : Nat) :
    (charBehind c k).toNat = min (c.toNat + k) (if c.toNat < 0xD800 then 0xD7FF else 0x10FFFF) := by
  have hvalid : c.toNat < 0xD800 ∨ (0xDFFF < c.toNat ∧ c.toNat < 0x110000) := c.valid
  rw [charBehind, Char.toNat_ofNat, if_pos]
  show _ ∨ _
  split <;> omega

theorem iterate_nextChar (c : Char) (k : Nat) : nextChar^[k] c = charBehind c k := by
  have hvalid : c.toNat < 0xD800 ∨ (0xDFFF < c.toNat ∧ c.toNat < 0x110000) := c.valid
  rw [← Char.toNat_inj]
  induction k with
  | zero =>
    rw [Function.iterate_zero_apply, toNat_charBehind]
    split <;> omega
  | succ k ih =>
    rw [Function.iterate_succ_apply', toNat_nextChar, ih, toNat_charBehind, toNat_charBehind]
    split <;> split <;> omega

/-- Advancing a text again and again moves its last character on. -/
theorem iterate_advanceLast (text : List Char) (k : Nat) : advanceLast^[k] text = textBehind text k := by
  rcases List.eq_nil_or_concat text with rfl | ⟨front, c, rfl⟩
  · rw [Function.iterate_fixed rfl]
    rfl
  · rw [List.concat_eq_append]
    have hiterate : advanceLast^[k] (front ++ [c]) = front ++ [nextChar^[k] c] := by
      induction k with
      | zero => rfl
      | succ k ih =>
        rw [Function.iterate_succ_apply', Function.iterate_succ_apply', ih]
        simp [advanceLast]
    rw [hiterate, iterate_nextChar]
    simp [textBehind]

/-! ## Entries -/

/-- An entry of a section of either kind. -/
inductive Entry where
  | pair (code text : Bytes)
  | range (e : Range)

def Section.entries : Section → List Entry
  | pairs entries => entries.map fun e => .pair e.1 e.2
  | ranges entries => entries.map .range

namespace Entry

/-- Codes have at most four bytes, and those of a range are in order and not too far apart. -/
def WellFormed : Entry → Prop
  | pair code _ => code.length ≤ 4
  | range e => e.low.length ≤ 4 ∧ e.high.length ≤ 4 ∧ Bytes.bigEndian e.low ≤ Bytes.bigEndian e.high ∧
      Bytes.bigEndian e.high - Bytes.bigEndian e.low ≤ 0xFFFF

/-- The text of a code that an entry covers. A pair covers its code and a text all codes of its range;
of a list only those are covered for which there is a text. -/
def covered? (e : Entry) (code : UInt32) : Option String :=
  match e with
  | pair c text => if code.toNat = Bytes.bigEndian c then some (textOf text) else none
  | range ⟨low, high, target⟩ =>
    if Bytes.bigEndian low ≤ code.toNat ∧ code.toNat ≤ Bytes.bigEndian high then
      match target with
      | .run start =>
        some (String.ofList (textBehind (Utf16.decode start) (code.toNat - Bytes.bigEndian low)))
      | .list texts => texts[code.toNat - Bytes.bigEndian low]?.map textOf
    else none

/-- A list for codes up to the greatest there is, with more texts than codes. -/
def Overruns : Entry → Prop
  | range ⟨low, high, .list texts⟩ =>
    Bytes.bigEndian high = 2 ^ 32 - 1 ∧ 2 ^ 32 < Bytes.bigEndian low + texts.length
  | _ => False

/-- What an entry gives to codes. -/
def pairs : Entry → List (UInt32 × String)
  | pair code text => [(codeOf code, textOf text)]
  | range e => e.pairs

/-- The text that an entry gives to a code, the last one if there are several. -/
def given? (e : Entry) (code : UInt32) : Option String := last? e.pairs code

end Entry

/-- A code of at most four bytes is their number. -/
theorem toNat_codeOf {bs : Bytes} (h : bs.length ≤ 4) : (codeOf bs).toNat = Bytes.bigEndian bs := by
  induction bs using List.reverseRecOn with
  | nil => rfl
  | append_singleton bs b ih =>
    rw [List.length_append, List.length_singleton] at h
    have hfront : Bytes.bigEndian bs < 2 ^ 24 :=
      calc Bytes.bigEndian bs < 256 ^ bs.length := Bytes.bigEndian_lt bs
        _ ≤ 256 ^ 3 := Nat.pow_le_pow_right (by decide) (by omega)
    have hb : b.toNat < 2 ^ 8 := b.toNat_lt
    have hcode : codeOf (bs ++ [b]) = codeOf bs <<< 8 ||| b.toUInt32 := by
      simp [codeOf, List.foldl_append]
    calc (codeOf (bs ++ [b])).toNat
        = Bytes.bigEndian bs <<< 8 % 2 ^ 32 ||| b.toNat := by
          rw [hcode, UInt32.toNat_or, UInt32.toNat_shiftLeft, ih (by omega)]
          rfl
      _ = Bytes.bigEndian bs <<< 8 ||| b.toNat := by
          rw [Nat.mod_eq_of_lt (by rw [Nat.shiftLeft_eq]; omega)]
      _ = Bytes.bigEndian (bs ++ [b]) := by
          rw [← Nat.shiftLeft_add_eq_or_of_lt hb, Nat.shiftLeft_eq, Bytes.bigEndian_snoc]

namespace Entry.WellFormed

variable {e : Range}

theorem width_eq (h : (range e).WellFormed) :
    e.width = Bytes.bigEndian e.high - Bytes.bigEndian e.low + 1 := by
  obtain ⟨hlow, hhigh, hle, -⟩ := h
  have hcodes : codeOf e.low ≤ codeOf e.high := by
    rwa [UInt32.le_iff_toNat_le, toNat_codeOf hlow, toNat_codeOf hhigh]
  rw [Range.width, UInt32.toNat_sub_of_le _ _ hcodes, toNat_codeOf hlow, toNat_codeOf hhigh]

theorem proper (h : (range e).WellFormed) : e.Proper := by
  have hwidth := h.width_eq
  obtain ⟨hlow, hhigh, hle, hspan⟩ := h
  constructor
  · rwa [UInt32.le_iff_toNat_le, toNat_codeOf hlow, toNat_codeOf hhigh]
  · rw [UInt32.le_iff_toNat_le]
    rw [Range.width] at hwidth
    show _ ≤ 0xFFFF
    omega

/-- The last code of an entry is a code. -/
theorem bigEndian_high_lt (h : (range e).WellFormed) : Bytes.bigEndian e.high < 2 ^ 32 := by
  rw [← toNat_codeOf h.2.1]
  exact (codeOf e.high).toNat_lt

/-- An entry that does not overrun has a text for each of its codes, or fewer if it is a list. -/
theorem getElem?_texts (h : (range e).WellFormed) (hfits : ¬ (range e).Overruns) (k : Nat) :
    e.texts[k]? =
      if k < e.width then
        match e.target with
        | .run start => some (String.ofList (textBehind (Utf16.decode start) k))
        | .list texts => texts[k]?.map textOf
      else none := by
  have hwidth := h.width_eq
  have hlow := h.2.2.1
  have hhigh := h.bigEndian_high_lt
  have hgreatest : codeOf e.high = 0xFFFFFFFF ↔ Bytes.bigEndian e.high = 2 ^ 32 - 1 := by
    rw [← UInt32.toNat_inj, toNat_codeOf h.2.1]
    rfl
  obtain ⟨low, high, target⟩ := e
  cases target with
  | run start =>
    simp only [Range.texts, iterate_advanceLast, List.getElem?_map]
    split
    case isTrue hk => rw [List.getElem?_range hk]; rfl
    case isFalse hk => rw [List.getElem?_eq_none (by simpa using hk)]; rfl
  | list texts =>
    simp only [Range.texts, hgreatest]
    by_cases hlast : Bytes.bigEndian high = 2 ^ 32 - 1
    · -- the whole list counts, but it has no more texts than there are codes
      have hlength : texts.length ≤ (⟨low, high, .list texts⟩ : Range).width := by
        have hnot : ¬ 2 ^ 32 < Bytes.bigEndian low + texts.length := fun hmore => hfits ⟨hlast, hmore⟩
        dsimp only at hwidth hlow
        omega
      rw [if_pos hlast, List.getElem?_map]
      split
      case isTrue => rfl
      case isFalse hk => rw [List.getElem?_eq_none (by omega)]; rfl
    · rw [if_neg hlast, List.getElem?_map, List.getElem?_take]
      split <;> rfl

/-- An entry that does not overrun gives texts to the codes that it covers. -/
theorem given?_eq {e : Entry} (h : e.WellFormed) (hfits : ¬ e.Overruns) (code : UInt32) :
    e.given? code = e.covered? code := by
  cases e with
  | pair c text =>
    have hcode : code = codeOf c ↔ code.toNat = Bytes.bigEndian c := by
      rw [← toNat_codeOf h, UInt32.toNat_inj]
    rw [given?, pairs, last?_cons]
    simp only [hcode]
    rfl
  | range e =>
    have hwidth := h.width_eq
    have hlow := h.2.2.1
    have hhigh := h.bigEndian_high_lt
    have hlength : e.texts.length ≤ e.width := by
      rw [← List.getElem?_eq_none_iff, h.getElem?_texts hfits, if_neg (Nat.lt_irrefl _)]
    have hfit : (codeOf e.low).toNat + e.texts.length ≤ 2 ^ 32 := by
      rw [toNat_codeOf h.1]
      omega
    rw [given?, pairs, Range.pairs, last?_consecutive_of_le hfit, h.getElem?_texts hfits,
      toNat_codeOf h.1]
    have hcovers : (codeOf e.low ≤ code ∧ code.toNat - Bytes.bigEndian e.low < e.width) ↔
        Bytes.bigEndian e.low ≤ code.toNat ∧ code.toNat ≤ Bytes.bigEndian e.high := by
      rw [UInt32.le_iff_toNat_le, toNat_codeOf h.1]
      omega
    obtain ⟨low, high, target⟩ := e
    rw [← ite_and]
    simp only [hcovers]
    cases target <;> rfl

/-- One that overruns goes on with code zero, which it does not cover. -/
theorem given?_zero {e : Entry} (hwell : e.WellFormed) (hover : e.Overruns) :
    e.given? 0 ≠ none ∧ e.covered? 0 = none := by
  rcases e with ⟨c, text⟩ | ⟨low, high, start | texts⟩
  · cases hover
  · cases hover
  · obtain ⟨hlast, hmore⟩ := hover
    obtain ⟨hshort, hshort', hle, hspan⟩ := hwell
    dsimp only at hle hspan
    have hlow : 0 < Bytes.bigEndian low := by omega
    have htexts : (⟨low, high, .list texts⟩ : Range).texts = texts.map textOf := by
      have hgreatest : codeOf high = 0xFFFFFFFF := by
        rw [← UInt32.toNat_inj, toNat_codeOf hshort', hlast]
        rfl
      simp [Range.texts, hgreatest]
    constructor
    · rw [given?, pairs, Range.pairs, htexts, Option.ne_none_iff_isSome, isSome_last?_consecutive,
        UInt32.toNat_sub, toNat_codeOf hshort, List.length_map]
      show (2 ^ 32 - Bytes.bigEndian low + 0) % 2 ^ 32 < texts.length
      omega
    · have hzero : ¬ Bytes.bigEndian low ≤ (0 : UInt32).toNat := Nat.not_le.mpr hlow
      simp only [covered?, hzero, false_and, if_false]

theorem given?_eq_iff {e : Entry} (h : e.WellFormed) :
    (∀ code, e.given? code = e.covered? code) ↔ ¬ e.Overruns := by
  constructor
  · intro hall hover
    obtain ⟨hgiven, hcovered⟩ := h.given?_zero hover
    exact hgiven ((hall 0).trans hcovered)
  · intro hfits code
    exact h.given?_eq hfits code

end Entry.WellFormed

/-! ## Sections and what stands between them -/

/-- Tokens among which no section ends. -/
def Unended (ts : List Token) : Prop := ∀ t ∈ ts, t ≠ .word "endbfchar" ∧ t ≠ .word "endbfrange"

/-- Sections, each behind other tokens, and what comes after them. -/
def program (parts : List (List Token × Section)) (rest : List Token) : List Token :=
  parts.flatMap (fun p => p.1 ++ p.2.tokens) ++ rest

/-- All entries in the order in which they stand. -/
def entriesOf (parts : List (List Token × Section)) : List Entry := parts.flatMap fun p => p.2.entries

theorem Reader.map_feed (r : Reader) {t : Token} (hpairs : t ≠ .word "endbfchar")
    (hranges : t ≠ .word "endbfrange") : (r.feed t).map = r.map := by
  cases t with
  | word w =>
    have hpairs' : w ≠ "endbfchar" := fun h => hpairs (congrArg _ h)
    have hranges' : w ≠ "endbfrange" := fun h => hranges (congrArg _ h)
    simp [feed, hpairs', hranges']
  | _ => rfl

/-- Where no section ends, nothing is added to the map. -/
theorem Unended.map_foldl {ts : List Token} (h : Unended ts) (r : Reader) :
    (ts.foldl Reader.feed r).map = r.map := by
  induction ts generalizing r with
  | nil => rfl
  | cons t ts ih =>
    obtain ⟨hfirst, hrest⟩ := List.forall_mem_cons.mp h
    rw [List.foldl_cons, ih hrest, r.map_feed hfirst.1 hfirst.2]

theorem Section.addTo_eq {s : Section} (h : ∀ e ∈ s.entries, e.WellFormed) (m : CMap) :
    s.addTo m = m.insertAll (s.entries.flatMap Entry.pairs) := by
  cases s with
  | pairs entries =>
    rw [addTo, operands, readPairs_eq, Section.entries, List.flatMap_map, List.map_eq_flatMap]
    rfl
  | ranges entries =>
    have hproper : ∀ e ∈ entries, e.Proper := fun e he => (h (.range e) (List.mem_map_of_mem he)).proper
    rw [addTo, operands, readRanges_of_proper hproper, Section.entries, List.flatMap_map]
    rfl

theorem map_foldl_program {parts : List (List Token × Section)} {rest : List Token}
    (hgaps : ∀ p ∈ parts, Unended p.1) (hrest : Unended rest)
    (hentries : ∀ e ∈ entriesOf parts, e.WellFormed) (r : Reader) :
    ((program parts rest).foldl Reader.feed r).map =
      r.map.insertAll ((entriesOf parts).flatMap Entry.pairs) := by
  induction parts generalizing r with
  | nil => simpa [program, entriesOf] using hrest.map_foldl r
  | cons p parts ih =>
    obtain ⟨gap, s⟩ := p
    obtain ⟨hgap, hgaps⟩ := List.forall_mem_cons.mp hgaps
    have hall : entriesOf ((gap, s) :: parts) = s.entries ++ entriesOf parts := rfl
    rw [hall] at hentries ⊢
    obtain ⟨hs, hentries⟩ := List.forall_mem_append.mp hentries
    have hprogram : program ((gap, s) :: parts) rest = gap ++ (s.tokens ++ program parts rest) := by
      simp [program]
    rw [hprogram, List.foldl_append, List.foldl_append, s.foldl_feed, ih hgaps hentries,
      Section.addTo_eq hs, hgap.map_foldl, List.flatMap_append, insertAll_append]

/-- **What a character map says.** The text of a code is the one that the last entry gives it of those
that give it one, and none if there is no such entry. An entry gives the texts to the codes that it
covers if and only if it does not overrun, so that the last entry that covers a code decides where no
entry overruns. -/
theorem lookup?_ofBytes {bs : Bytes} {parts : List (List Token × Section)} {rest : List Token}
    (hread : Token.readAll bs = program parts rest) (hgaps : ∀ p ∈ parts, Unended p.1)
    (hrest : Unended rest) (hentries : ∀ e ∈ entriesOf parts, e.WellFormed) :
    (∀ code, (ofBytes bs).lookup? code =
        (entriesOf parts).reverse.findSome? fun e => e.given? code) ∧
      (∀ e ∈ entriesOf parts, (∀ code, e.given? code = e.covered? code) ↔ ¬ e.Overruns) ∧
      ((∀ e ∈ entriesOf parts, ¬ e.Overruns) → ∀ code, (ofBytes bs).lookup? code =
        (entriesOf parts).reverse.findSome? fun e => e.covered? code) := by
  have hlookup (code : UInt32) : (ofBytes bs).lookup? code =
      (entriesOf parts).reverse.findSome? fun e => e.given? code := by
    have hempty : empty.lookup? code = none := by simp [empty, lookup?]
    rw [ofBytes, hread, ofTokens, map_foldl_program hgaps hrest hentries, lookup?_insertAll,
      last?_flatMap, hempty, Option.or_none]
    rfl
  refine ⟨hlookup, fun e he => (hentries e he).given?_eq_iff, fun hfits code => ?_⟩
  rw [hlookup]
  apply findSome?_congr
  intro e he
  rw [List.mem_reverse] at he
  exact (hentries e he).given?_eq (hfits e he) code

/-- A list of two texts for the greatest code, behind a text for code zero. -/
def overrunning : List (List Token × Section) :=
  [([], .pairs [([0x00], [0x00, 0x43])]),
    ([], .ranges [⟨[0xFF, 0xFF, 0xFF, 0xFF], [0xFF, 0xFF, 0xFF, 0xFF],
      .list [[0x00, 0x41], [0x00, 0x42]]⟩])]

/-- The second text of the list replaces that of code zero, which the list does not cover. -/
theorem lookup?_ofBytes_overrunning :
    let bs := overrunning.flatMap fun p => p.2.written
    Token.readAll bs = program overrunning [] ∧ (∀ p ∈ overrunning, Unended p.1) ∧ Unended [] ∧
      (∀ e ∈ entriesOf overrunning, e.WellFormed) ∧ (ofBytes bs).lookup? 0 = some "B" ∧
      (entriesOf overrunning).reverse.findSome? (fun e => e.covered? 0) = some "C" := by
  intro bs
  have hread : Token.readAll bs = program overrunning [] := by
    have hsections := Token.readAll_flatMap Section.readAll_written (overrunning.map Prod.snd) []
    rw [Token.readAll_nil, List.append_nil, List.append_nil, List.flatMap_map] at hsections
    exact hsections
  have hgaps : ∀ p ∈ overrunning, Unended p.1 := by
    simp [overrunning, Unended]
  have hrest : Unended [] := by
    simp [Unended]
  have hentries : ∀ e ∈ entriesOf overrunning, e.WellFormed := by
    simp [entriesOf, overrunning, Section.entries, Entry.WellFormed, Bytes.bigEndian]
  refine ⟨hread, hgaps, hrest, hentries, ?_, ?_⟩
  · rw [(lookup?_ofBytes hread hgaps hrest hentries).1 0]
    decide +kernel
  · decide +kernel

end PdfScene.CMap
