import Mathlib
import PdfScene.Proofs.Content.Pieces

/-!
# Well-sized operations

Whoever carries out operations looks at operands by their places, some at the first without asking
whether there is one. That is safe because the reader hands out well-sized operations alone, whatever
the bytes: `WellSized` is what holds of each. It speaks of the pieces of the content, so that it says
not only how many operands there are but also where they stand.
-/

set_option autoImplicit false

namespace PdfScene.Operation

/-! ## Where operands stand -/

/-- The pieces `since` stand in front of a word `w` and behind another word, an image or nothing: they
are all the operands there are for the word. -/
def StandBefore (ps : List Piece) (since : List Obj) (w : String) : Prop :=
  ∃ before after, ps = before ++ since.map .operand ++ .word w :: after ∧
    ∀ a, before.getLast? ≠ some (.operand a)

/-- An operator takes the last operands before its word, as many as it needs. -/
theorem applied_eq_some {since : List Obj} {w : String} {o : Operation}
    (h : applied since w = some o) :
    Operator.ofCommand? w = some o.op ∧ o.op ≠ .inlineImage ∧ o.args <:+ since ∧
      (∀ n, o.op.arity? = some n → o.args.length = n) ∧
      (o.op.arity? = none → o.args = since) := by
  unfold applied at h
  cases hw : Operator.ofCommand? w with
  | none =>
    rw [hw] at h
    cases h
  | some op =>
    rw [hw] at h
    by_cases himage : op = .inlineImage
    · subst himage
      cases h
    · replace h := (if_neg himage).symm.trans h
      cases harity : op.arity? with
      | none =>
        rw [harity] at h
        cases h
        refine ⟨rfl, himage, List.suffix_rfl, fun n hn => ?_, fun _ => rfl⟩
        rw [harity] at hn
        cases hn
      | some n =>
        rw [harity] at h
        by_cases hshort : since.length < n
        · replace h := (if_pos hshort).symm.trans h
          cases h
        · replace h := (if_neg hshort).symm.trans h
          cases h
          refine ⟨rfl, himage, List.drop_suffix .., fun m hm => ?_, fun hnone => ?_⟩
          · rw [harity] at hm
            cases hm
            rw [List.length_drop]
            omega
          · rw [harity] at hnone
            cases hnone

/-- The pieces of what a word or an image in front leaves. -/
theorem StandBefore.behind {p : Piece} {ps : List Piece} {items since : List Obj} {w : String}
    (h : StandBefore ps since w) (hp : ∀ a, p ≠ .operand a) :
    StandBefore (items.map .operand ++ p :: ps) since w := by
  obtain ⟨before, after, hps, hlast⟩ := h
  refine ⟨items.map .operand ++ p :: before, after, by simp [hps], fun a => ?_⟩
  rw [List.getLast?_append, List.getLast?_cons]
  cases hbefore : before.getLast? with
  | none => simpa using hp a
  | some q => simpa [hbefore] using hlast a

/-- Each operation is an image or comes of the operands before a word. -/
theorem mem_ofPieces {since : List Obj} {ps : List Piece} {o : Operation}
    (h : o ∈ ofPieces since ps) :
    (∃ entries data, o = ⟨.inlineImage, [.stream entries data none]⟩) ∨
      ∃ items w, StandBefore (since.map .operand ++ ps) items w ∧ applied items w = some o := by
  induction ps generalizing since with
  | nil => cases h
  | cons p ps ih =>
    cases p with
    | operand a =>
      have hshift : (since ++ [a]).map Piece.operand ++ ps =
          since.map .operand ++ .operand a :: ps := by simp
      exact hshift ▸ ih h
    | word w =>
      rcases List.mem_append.mp h with h | h
      · refine .inr ⟨since, w, ⟨[], ps, rfl, by simp⟩, ?_⟩
        simpa using h
      · exact (ih h).imp_right fun ⟨items, w', hstand, ho⟩ => ⟨items, w', hstand.behind nofun, ho⟩
    | image entries data =>
      rcases List.mem_cons.mp h with rfl | h
      · exact .inl ⟨entries, data, rfl⟩
      · exact (ih h).imp_right fun ⟨items, w', hstand, ho⟩ => ⟨items, w', hstand.behind nofun, ho⟩

/-! ## All operations of content -/

/-- An operation as content with the pieces `ps` can make it. -/
structure WellSized (ps : List Piece) (o : Operation) : Prop where
  /-- An image has one operand, a stream. -/
  image : o.op = .inlineImage →
    ∃ entries data, o.args = [.stream entries data none] ∧ ∀ e ∈ entries, e.2.Spelled
  /-- Any other operator has operands in which there is no stream and no reference. -/
  spelled : o.op ≠ .inlineImage → ∀ a ∈ o.args, a.Spelled
  sized : o.op ≠ .inlineImage → ∀ n, o.op.arity? = some n → o.args.length = n
  /-- They are the last ones before its word, and all of them if their number is not fixed. -/
  last : o.op ≠ .inlineImage → ∃ since w, StandBefore ps since w ∧
    Operator.ofCommand? w = some o.op ∧ o.args <:+ since ∧ (o.op.arity? = none → o.args = since)
  /-- Where the first operand is looked at without asking, there is one. -/
  first : o.op = .setDash ∨ o.op = .showSpacedText ∨ o.op = .inlineImage →
    ∃ a, o.args[0]? = some a

/-- **Every operation of content is well-sized.** -/
theorem readAll_wellSized (bs : Bytes) : ∀ o ∈ readAll bs, WellSized (divide [] bs).pieces o := by
  intro o ho
  have hspelled := readAll_spelled bs o ho
  rw [readAll_eq] at ho
  rcases mem_ofPieces ho with ⟨entries, data, rfl⟩ | ⟨since, w, hstand, happlied⟩
  · cases hspelled with
    | image hentries =>
      exact ⟨fun _ => ⟨entries, data, rfl, hentries⟩, fun h => absurd rfl h, fun h => absurd rfl h,
        fun h => absurd rfl h, fun _ => ⟨_, rfl⟩⟩
    | operands himage => exact absurd rfl himage
  · obtain ⟨hw, himage, hlast, hsized, hall⟩ := applied_eq_some happlied
    cases hspelled with
    | image => exact absurd rfl himage
    | @operands op args _ hargs =>
      refine ⟨fun h => absurd h himage, fun _ => hargs, fun _ => hsized,
        fun _ => ⟨since, w, hstand, hw, hlast, hall⟩, ?_⟩
      have hpositive : ∀ {n}, op.arity? = some (n + 1) → ∃ a, args[0]? = some a := by
        intro n hn
        have hlength : args.length = n + 1 := hsized _ hn
        exact ⟨args[0], List.getElem?_eq_getElem (by omega)⟩
      rintro (h | h | h)
      · exact hpositive (by rw [show op = .setDash from h]; rfl)
      · exact hpositive (by rw [show op = .showSpacedText from h]; rfl)
      · exact absurd h himage

/-- A list of strings to show is the last of two operands, behind an unknown word. -/
theorem readAll_wellSized_spaced :
    WellSized (divide [] (Bytes.ofAscii "/P what /Q [(a)] TJ")).pieces
      ⟨.showSpacedText, [.array [.str (Bytes.ofAscii "a")]]⟩ := by
  have hread : readAll (Bytes.ofAscii "/P what /Q [(a)] TJ") =
      [⟨.showSpacedText, [.array [.str (Bytes.ofAscii "a")]]⟩] := by
    cbv
  exact readAll_wellSized _ _ (hread ▸ List.mem_singleton_self _)

end PdfScene.Operation
