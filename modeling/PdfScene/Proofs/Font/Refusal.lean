import PdfScene.Proofs.Font.Sections

/-!
# Entries that are no ranges

An entry whose codes are out of order or too far apart is refused as soon as what follows the codes is
read. That is all of the entry if it is a text. If it is a list, it is only the start of it, and the
texts of the list are taken for entries, three by three (`leftover`), up to the end of the list. The end
is passed over where the text of an entry may stand, and ends the section everywhere else.

`heeded` says which entries count in the end (`readRanges_entries`). An entry that is refused leaves
nothing behind if and only if it is `Range.Silent` (`ofBytes_ranges`).
-/

set_option autoImplicit false

namespace PdfScene.CMap

open Assignments

/-! ## What is read in place of an entry -/

/-- The entries that the texts of a list are taken for, three by three. -/
def leftover : List Bytes → List Range
  | low :: high :: start :: texts => ⟨low, high, .run start⟩ :: leftover texts
  | _ => []

/-- The entries that count when a section is read. Of one that is refused, a list is read on as entries,
and unless its end stands where a text may stand, nothing counts behind it. -/
def heeded : List Range → List Range
  | [] => []
  | e :: es =>
    if e.Proper then e :: heeded es
    else
      match e.target with
      | .run _ => heeded es
      | .list texts =>
        (leftover texts).filter Range.Proper ++ if texts.length % 3 = 2 then heeded es else []

/-- Of an entry that is refused nothing is left that counts. -/
def Range.Silent (e : Range) : Prop :=
  match e.target with
  | .run _ => True
  | .list texts => texts.length % 3 = 2 ∧ ∀ r ∈ leftover texts, ¬ r.Proper

theorem readRanges_leftover (m : CMap) (texts : List Bytes) (rest : List Token) :
    readRanges m (texts.map .hexStr ++ .arrayEnd :: rest) =
      if texts.length % 3 = 2 then
        readRanges (m.insertAll (((leftover texts).filter Range.Proper).flatMap Range.pairs)) rest
      else m.insertAll (((leftover texts).filter Range.Proper).flatMap Range.pairs) := by
  fun_induction leftover texts generalizing m with
  | case1 low high start texts ih =>
    have hlength : (low :: high :: start :: texts).length % 3 = texts.length % 3 := by
      simp only [List.length_cons]
      omega
    rw [hlength]
    by_cases hproper : (⟨low, high, .run start⟩ : Range).Proper
    · have hread := readRanges_proper hproper m (texts.map .hexStr ++ .arrayEnd :: rest)
      rw [List.filter_cons_of_pos (by simpa using hproper), List.flatMap_cons, insertAll_append, ← ih]
      exact hread
    · have hread := readRanges_refused hproper m (.hexStr start) (texts.map .hexStr ++ .arrayEnd :: rest)
      rw [List.filter_cons_of_neg (by simpa using hproper), ← ih]
      exact hread
  | case2 texts hshort =>
    match texts with
    | [] => simp [readRanges]
    | [text] => simp [readRanges]
    | [low, high] =>
      rw [readRanges.eq_def]
      simp
    | low :: high :: start :: texts => exact absurd rfl (hshort low high start texts)

theorem readRanges_entries (m : CMap) (es : List Range) :
    m.readRanges (es.flatMap Range.tokens) = m.insertAll ((heeded es).flatMap Range.pairs) := by
  induction es generalizing m with
  | nil => simp [heeded, readRanges]
  | cons e es ih =>
    rw [List.flatMap_cons, heeded]
    by_cases hproper : e.Proper
    · rw [readRanges_proper hproper, ih, if_pos hproper, List.flatMap_cons, insertAll_append]
    · rw [if_neg hproper]
      obtain ⟨low, high, target⟩ := e
      cases target with
      | run start =>
        rw [← ih]
        exact readRanges_refused hproper m (.hexStr start) _
      | list texts =>
        have hread := readRanges_refused hproper m .arrayStart
          (texts.map .hexStr ++ .arrayEnd :: es.flatMap Range.tokens)
        rw [readRanges_leftover, ih] at hread
        have htokens : (⟨low, high, .list texts⟩ : Range).tokens ++ es.flatMap Range.tokens =
            .hexStr low :: .hexStr high :: .arrayStart ::
              (texts.map .hexStr ++ .arrayEnd :: es.flatMap Range.tokens) := by
          simp [Range.tokens]
        rw [htokens, hread]
        dsimp only
        split <;> simp [insertAll_append]

/-! ## What counts and what does not -/

theorem heeded_of_proper {es : List Range} (h : ∀ e ∈ es, e.Proper) : heeded es = es := by
  induction es with
  | nil => rfl
  | cons e es ih =>
    rw [List.forall_mem_cons] at h
    rw [heeded, if_pos h.1, ih h.2]

theorem Range.Silent.filter_leftover {e : Range} {texts : List Bytes} (h : e.Silent)
    (htarget : e.target = .list texts) :
    texts.length % 3 = 2 ∧ (leftover texts).filter Range.Proper = [] := by
  rw [Silent, htarget] at h
  refine ⟨h.1, ?_⟩
  rw [List.filter_eq_nil_iff]
  intro r hr
  simpa using h.2 r hr

theorem proper_of_mem_heeded (es : List Range) : ∀ e ∈ heeded es, e.Proper := by
  induction es with
  | nil => simp [heeded]
  | cons e es ih =>
    intro r hr
    rw [heeded] at hr
    by_cases hproper : e.Proper
    · rw [if_pos hproper] at hr
      rcases List.mem_cons.mp hr with rfl | hmem
      · exact hproper
      · exact ih r hmem
    · rw [if_neg hproper] at hr
      cases htarget : e.target with
      | run start =>
        rw [htarget] at hr
        exact ih r hr
      | list texts =>
        rw [htarget] at hr
        rcases List.mem_append.mp hr with hleft | hrest
        · simpa using (List.mem_filter.mp hleft).2
        · split at hrest
          · exact ih r hrest
          · cases hrest

/-- A silent entry is passed over alone. -/
theorem heeded_cons_silent {e : Range} (hrefused : ¬ e.Proper) (hsilent : e.Silent) (es : List Range) :
    heeded (e :: es) = heeded es := by
  rw [heeded, if_neg hrefused]
  cases htarget : e.target with
  | run start => rfl
  | list texts =>
    obtain ⟨hlength, hfilter⟩ := hsilent.filter_leftover htarget
    simp [hlength, hfilter]

/-- Where all entries that are refused are silent, those that are left count, and no others. -/
theorem heeded_eq_filter {es : List Range} (h : ∀ e ∈ es, e.Proper ∨ e.Silent) :
    heeded es = es.filter Range.Proper := by
  induction es with
  | nil => rfl
  | cons e es ih =>
    rw [List.forall_mem_cons] at h
    by_cases hproper : e.Proper
    · rw [heeded, if_pos hproper, ih h.2, List.filter_cons_of_pos (by simpa using hproper)]
    · rw [heeded_cons_silent hproper (h.1.resolve_left hproper), ih h.2,
        List.filter_cons_of_neg (by simpa using hproper)]

/-- Behind a list that does not end where a text may stand nothing counts. -/
theorem heeded_cons_unended {e : Range} {texts : List Bytes} (hrefused : ¬ e.Proper)
    (htarget : e.target = .list texts) (hlength : texts.length % 3 ≠ 2) (es : List Range) :
    heeded (e :: es) = (leftover texts).filter Range.Proper := by
  simp [heeded, hrefused, htarget, hlength]

/-! ## Entries that are not passed over alone -/

/-- A code and its text as a range. -/
def Range.single (start : Bytes) : Range := ⟨[], [], .run start⟩

theorem Range.proper_single (start : Bytes) : (single start).Proper := by
  simp [Proper, single, codeOf, rangeLimit]

theorem lookup?_ofBytes_ranges (es : List Range) (code : UInt32) :
    (ofBytes (Section.ranges es).written).lookup? code =
      last? ((heeded es).flatMap Range.pairs) code := by
  have hempty : empty.lookup? code = none := by simp [empty, lookup?]
  rw [Section.ofBytes_written, Section.addTo, Section.operands, readRanges_entries, lookup?_insertAll,
    hempty, Option.or_none]

theorem lookup?_single (start : Bytes) :
    (ofBytes (Section.ranges [Range.single start]).written).lookup? 0 = some (textOf start) := by
  rw [lookup?_ofBytes_ranges, heeded_of_proper (by simpa using Range.proper_single start)]
  simp [Range.pairs, Range.single, Range.texts, Range.width, codeOf, consecutive, last?, textOf]

/-- An entry that is made of three texts of a list gives its first code a text. -/
theorem last?_of_mem_leftover {texts : List Bytes} {r : Range} (h : r ∈ leftover texts) :
    last? r.pairs (codeOf r.low) ≠ none := by
  fun_induction leftover texts with
  | case1 low high start texts ih =>
    rcases List.mem_cons.mp h with rfl | hmem
    · rw [Range.pairs, Option.ne_none_iff_isSome, isSome_last?_consecutive]
      simp [Range.texts, Range.width]
    · exact ih hmem
  | case2 => cases h

/-- An entry that is refused and not silent is told from its absence in some section. -/
theorem exists_ofBytes_ne {e : Range} (hrefused : ¬ e.Proper) (h : ¬ e.Silent) :
    ∃ es, ofBytes (Section.ranges (e :: es)).written ≠ ofBytes (Section.ranges es).written := by
  by_contra hnone
  push Not at hnone
  have hsame (es : List Range) (code : UInt32) :
      last? ((heeded (e :: es)).flatMap Range.pairs) code = last? ((heeded es).flatMap Range.pairs) code := by
    rw [← lookup?_ofBytes_ranges, ← lookup?_ofBytes_ranges, hnone]
  cases htarget : e.target with
  | run start => exact h (by simp [Range.Silent, htarget])
  | list texts =>
    by_cases hlength : texts.length % 3 = 2
    · -- an entry counts that is made of the list, and gives its first code a text
      obtain ⟨r, hr, hproper⟩ : ∃ r ∈ leftover texts, r.Proper := by
        by_contra hall
        push Not at hall
        exact h (by simpa [Range.Silent, htarget] using ⟨hlength, hall⟩)
      have hheeded : heeded [e] = (leftover texts).filter Range.Proper := by
        simp [heeded, hrefused, htarget]
      have hnothing := hsame [] (codeOf r.low)
      rw [hheeded, last?_flatMap] at hnothing
      refine last?_of_mem_leftover hr (List.findSome?_eq_none_iff.mp hnothing r ?_)
      simpa using ⟨hr, hproper⟩
    · -- the entry behind it does not count, so that it may have either of two texts
      have hbehind (start : Bytes) : last? (((leftover texts).filter Range.Proper).flatMap Range.pairs) 0 =
          some (textOf start) := by
        rw [← heeded_cons_unended hrefused htarget hlength [.single start], hsame,
          ← lookup?_ofBytes_ranges, lookup?_single]
      have htexts : textOf [] = textOf [0x41] :=
        Option.some.inj ((hbehind []).symm.trans (hbehind [0x41]))
      exact absurd htexts (by decide)

/-- What a section is read as depends on the entries that count. -/
theorem addTo_ranges_congr {es es' : List Range} (h : heeded es = heeded es') (m : CMap) :
    (Section.ranges es).addTo m = (Section.ranges es').addTo m := by
  rw [Section.addTo, Section.addTo, Section.operands, Section.operands, readRanges_entries,
    readRanges_entries, h]

theorem ofBytes_congr {bs bs' : Bytes} {before after : List Token} {es es' : List Range}
    (hbs : Token.readAll bs = before ++ ((Section.ranges es).tokens ++ after))
    (hbs' : Token.readAll bs' = before ++ ((Section.ranges es').tokens ++ after))
    (h : heeded es = heeded es') : ofBytes bs = ofBytes bs' := by
  rw [ofBytes, ofBytes, hbs, hbs', Section.ofTokens_append, Section.ofTokens_append,
    addTo_ranges_congr h]

/-- **Entries that are no ranges.** What a section of ranges says depends on the entries that count in
it. If all entries that are refused are silent, those that are not refused count, so that the others may
as well be missing. And an entry that is refused may be missing from the front of every section if and
only if it is silent. -/
theorem ofBytes_ranges {bs : Bytes} {before after : List Token} {es : List Range}
    (h : Token.readAll bs = before ++ ((Section.ranges es).tokens ++ after)) :
    (∀ bs', Token.readAll bs' = before ++ ((Section.ranges (heeded es)).tokens ++ after) →
        ofBytes bs = ofBytes bs') ∧
      ((∀ e ∈ es, e.Proper ∨ e.Silent) → ∀ bs',
        Token.readAll bs' = before ++ ((Section.ranges (es.filter Range.Proper)).tokens ++ after) →
          ofBytes bs = ofBytes bs') ∧
      ∀ e ∈ es, ¬ e.Proper → (e.Silent ↔
        ∀ es', ofBytes (Section.ranges (e :: es')).written = ofBytes (Section.ranges es').written) := by
  refine ⟨fun bs' h' => ?_, fun hsilent bs' h' => ?_,
    fun e _ hrefused => ⟨fun hsilent es' => ?_, fun hall => ?_⟩⟩
  · exact ofBytes_congr h h' (heeded_of_proper (proper_of_mem_heeded es)).symm
  · apply ofBytes_congr h h'
    rw [heeded_eq_filter hsilent, heeded_of_proper]
    intro e he
    simpa using (List.mem_filter.mp he).2
  · rw [Section.ofBytes_written, Section.ofBytes_written]
    exact addTo_ranges_congr (heeded_cons_silent hrefused hsilent es') empty
  · by_contra hnot
    obtain ⟨es', hne⟩ := exists_ofBytes_ne hrefused hnot
    exact hne (hall es')

/-- A list for codes that are no range, and a text behind it. -/
def overshadowed : List Range := [⟨[0x02], [0x01], .list [[0x00, 0x41]]⟩, .single [0x00, 0x42]]

/-- The text in the list is taken for a code, the end of the list for none, and the rest is lost. -/
theorem ofBytes_ranges_overshadowed :
    Token.readAll (Section.ranges overshadowed).written =
        [] ++ ((Section.ranges overshadowed).tokens ++ []) ∧
      (ofBytes (Section.ranges overshadowed).written).lookup? 0 = none ∧
      (ofBytes (Section.ranges (overshadowed.filter Range.Proper)).written).lookup? 0 = some "B" := by
  have hread (es : List Range) : Token.readAll (Section.ranges es).written =
      [] ++ ((Section.ranges es).tokens ++ []) := by
    simpa using (Section.ranges es).readAll_written []
  have hheeded : heeded overshadowed = [] := by decide
  have hfilter : overshadowed.filter Range.Proper = [.single [0x00, 0x42]] := by decide
  refine ⟨hread overshadowed, ?_, ?_⟩
  · rw [(ofBytes_ranges (hread overshadowed)).1 _ (hread _), hheeded, lookup?_ofBytes_ranges]
    rfl
  · rw [hfilter, lookup?_single]
    rfl

end PdfScene.CMap
