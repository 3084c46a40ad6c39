import PdfScene.Store.Scan

/-!
# Searching for a word

`Place.find?` goes to the first occurrence of a word. Between two pieces of a file there is none if
either piece is without it and no occurrence can span both, which the first or the last byte of the
word decides. Occurrences of a word that does not begin as it ends (`Unbordered`) do not overlap.
-/

set_option autoImplicit false

namespace PdfScene.Scan

/-! ## Occurrences -/

section Occurrences

variable {word a b u v : Bytes}

/-- Bytes without the last byte of a word can be added at the end. -/
theorem not_isInfix_append {last : UInt8} (h : ¬ word ++ [last] <:+: a) (hb : last ∉ b) :
    ¬ word ++ [last] <:+: a ++ b := by
  rintro ⟨u, v, heq⟩
  rcases List.append_eq_append_iff.mp heq with ⟨c, ha, -⟩ | ⟨c, hoccurrence, hc⟩
  · exact h ⟨u, c, ha.symm⟩
  · rcases List.eq_nil_or_concat c with rfl | ⟨c, x, rfl⟩
    · rw [List.append_nil] at hoccurrence
      exact h ⟨u, [], by rw [List.append_nil, hoccurrence]⟩
    · -- the occurrence ends in `b`
      rw [List.concat_eq_append, ← List.append_assoc, ← List.append_assoc] at hoccurrence
      obtain ⟨-, hlast⟩ := List.append_inj' hoccurrence rfl
      refine hb ?_
      rw [hc, List.singleton_inj.mp hlast]
      simp

/-- Bytes without the first byte of a word can be added at the front. -/
theorem not_isInfix_prepend {first : UInt8} (h : ¬ first :: word <:+: a) (hb : first ∉ b) :
    ¬ first :: word <:+: b ++ a := by
  rintro ⟨u, v, heq⟩
  rw [List.append_assoc] at heq
  rcases List.append_eq_append_iff.mp heq with ⟨c, hu, hrest⟩ | ⟨c, -, hrest⟩
  · cases c with
    | nil => exact h ⟨[], v, by simpa using hrest⟩
    | cons x c =>
      -- the occurrence begins in `b`
      obtain ⟨rfl, -⟩ := List.cons.inj hrest
      exact hb (hu ▸ by simp)
  · exact h ⟨c, v, by rw [hrest, List.append_assoc]⟩

/-- An occurrence is on one side of a byte that is not in the word. -/
theorem occurrence_beside {x : UInt8} (hx : x ∉ word) (heq : a ++ x :: b = u ++ word ++ v) :
    word <:+: a ∨ ∃ c, u = a ++ x :: c ∧ b = c ++ word ++ v := by
  rw [List.append_assoc] at heq
  rcases List.append_eq_append_iff.mp heq with ⟨c, hu, hrest⟩ | ⟨c, ha, hrest⟩
  · cases c with
    | nil =>
      -- it would begin with the byte, or be empty
      cases word with
      | nil => exact .inl (List.nil_infix)
      | cons y word =>
        obtain ⟨rfl, -⟩ := List.cons.inj hrest
        exact absurd List.mem_cons_self hx
    | cons y c =>
      obtain ⟨rfl, hb⟩ := List.cons.inj hrest
      exact .inr ⟨c, hu, hb.trans (List.append_assoc c word v).symm⟩
  · refine .inl ?_
    rcases List.append_eq_append_iff.mp hrest with ⟨d, hc, -⟩ | ⟨d, hword, hv⟩
    · exact ⟨u, d, by rw [ha, hc, List.append_assoc]⟩
    · cases d with
      | nil => exact ⟨u, [], by rw [ha, hword]; simp⟩
      | cons y d =>
        obtain ⟨rfl, -⟩ := List.cons.inj hv
        exact absurd (hword ▸ List.mem_append_right c List.mem_cons_self) hx

/-- An occurrence that does not reach back into a piece is behind it. -/
theorem occurrence_behind (heq : a ++ b = u ++ word ++ v) (hle : v.length + word.length ≤ b.length) :
    ∃ c, u = a ++ c ∧ b = c ++ word ++ v := by
  rw [List.append_assoc] at heq
  rcases List.append_eq_append_iff.mp heq with ⟨c, hu, hb⟩ | ⟨c, ha, hv⟩
  · exact ⟨c, hu, by rw [hb, List.append_assoc]⟩
  · have hc : c = [] := List.length_eq_zero_iff.mp (by
      have := congrArg List.length hv
      simp only [List.length_append] at this
      omega)
    subst hc
    exact ⟨[], by simpa using ha.symm, by simpa using hv.symm⟩

/-- A word of which no part is both a beginning and an end. -/
def Unbordered (word : Bytes) : Prop :=
  ∀ k < word.length, 0 < k → word.drop k ≠ word.take (word.length - k)

instance (word : Bytes) : Decidable (Unbordered word) :=
  inferInstanceAs (Decidable (∀ k < word.length, 0 < k → _ ≠ _))

/-- **Two occurrences of such a word are the same or one behind the other.** -/
theorem Unbordered.apart (h : Unbordered word) (heq : a ++ word ++ b = u ++ word ++ v)
    (hle : a.length ≤ u.length) : b = v ∨ ∃ c, b = c ++ word ++ v := by
  rw [List.append_assoc, List.append_assoc] at heq
  obtain ⟨c, hu, hrest⟩ : ∃ c, u = a ++ c ∧ word ++ b = c ++ (word ++ v) := by
    rcases List.append_eq_append_iff.mp heq with ⟨c, hu, hrest⟩ | ⟨c, ha, hrest⟩
    · exact ⟨c, hu, hrest⟩
    · have hc : c = [] := List.length_eq_zero_iff.mp (by
        have := congrArg List.length ha
        rw [List.length_append] at this
        omega)
      subst hc
      exact ⟨[], by simpa using ha.symm, by simpa using hrest.symm⟩
  rcases List.append_eq_append_iff.mp hrest with ⟨d, hc, hb⟩ | ⟨d, hword, hrest⟩
  · exact .inr ⟨d, by rw [hb, List.append_assoc]⟩
  · -- `d` is the part in which they would overlap
    by_cases hzero : c.length = 0
    · obtain rfl := List.length_eq_zero_iff.mp hzero
      exact .inl (by simpa using hrest)
    · by_cases hlength : c.length < word.length
      · have hdrop : word.drop c.length = d := by rw [hword, List.drop_left]
        have htake : word.take (word.length - c.length) = d := by
          have hd : d.length = word.length - c.length := by rw [← hdrop, List.length_drop]
          have := congrArg (List.take d.length) hrest
          rw [List.take_append_of_le_length (by omega), List.take_left' rfl] at this
          rw [← hd, this]
        exact absurd (hdrop.trans htake.symm) (h _ hlength (by omega))
      · have hd : d = [] := List.length_eq_zero_iff.mp (by
          have := congrArg List.length hword
          rw [List.length_append] at this
          omega)
        subst hd
        exact .inr ⟨[], by simpa using hrest.symm⟩

end Occurrences

/-! ## Finding a word -/

namespace Place

variable {word before after a b : Bytes} {q : Place}

/-- **The word is found where it occurs first.** -/
theorem find?_eq_some (before b : Bytes) (hword : word ≠ []) (h : ¬ word <:+: a ++ word.dropLast) :
    find? word before (a ++ word ++ b) = some ⟨(a ++ word).reverse ++ before, b⟩ := by
  induction a generalizing before with
  | nil =>
    obtain ⟨x, rest, rfl⟩ := List.exists_cons_of_ne_nil hword
    have hstart : (x :: rest).isPrefixOf (x :: (rest ++ b)) = true :=
      List.isPrefixOf_iff_prefix.mpr ⟨b, rfl⟩
    rw [List.nil_append, List.cons_append, find?, if_pos hstart]
    simp
  | cons x a ih =>
    have hstart : ¬ word.isPrefixOf (x :: (a ++ word ++ b)) = true := by
      intro hstart
      -- such an occurrence would end before the last byte of the next one
      have hlength : word.length ≤ (x :: a ++ word.dropLast).length := by
        simp only [List.length_append, List.length_cons, List.length_dropLast]
        omega
      have hshort : x :: a ++ word.dropLast <+: x :: (a ++ word ++ b) := by
        rw [List.cons_append, List.cons_prefix_cons]
        refine ⟨rfl, ?_⟩
        rw [List.append_assoc]
        refine (List.prefix_append_right_inj a).mpr ?_
        exact (List.dropLast_prefix word).trans (List.prefix_append word b)
      exact h (List.prefix_of_prefix_length_le (List.isPrefixOf_iff_prefix.mp hstart) hshort
        hlength).isInfix
    rw [List.cons_append, List.cons_append, find?, if_neg hstart, ih _ fun hlater =>
      h (hlater.trans (List.suffix_cons x _).isInfix)]
    simp

theorem not_isInfix_of_find? (hword : word ≠ []) (h : find? word before after = none) :
    ¬ word <:+: after := by
  fun_induction find? word before after with
  | case1 => simpa using hword
  | case2 => cases h
  | case3 before x rest hstart ih =>
    rintro ⟨u, v, huv⟩
    cases u with
    | nil => exact hstart (List.isPrefixOf_iff_prefix.mpr ⟨v, huv⟩)
    | cons y u => exact ih h ⟨u, v, (List.cons.inj huv).2⟩

/-- A place that is found is behind the first occurrence. -/
theorem of_find? (h : find? word before after = some q) :
    ∃ a, after = a ++ word ++ q.after ∧ q.before = (a ++ word).reverse ++ before ∧
      ∀ u v, after = u ++ word ++ v → a.length ≤ u.length := by
  fun_induction find? word before after with
  | case1 => cases h
  | case2 before x rest hstart =>
    obtain ⟨b, hb⟩ := List.isPrefixOf_iff_prefix.mp hstart
    cases h
    refine ⟨[], ?_, ?_, fun _ _ _ => Nat.zero_le _⟩
    · rw [← hb, List.drop_left]
      rfl
    · rw [← hb, List.take_left]
      rfl
  | case3 before x rest hstart ih =>
    obtain ⟨a, hrest, hbefore, hfirst⟩ := ih h
    refine ⟨x :: a, by rw [hrest]; rfl, by rw [hbefore]; simp, fun u v huv => ?_⟩
    cases u with
    | nil =>
      refine absurd (List.isPrefixOf_iff_prefix.mpr ⟨v, ?_⟩) hstart
      exact huv.symm
    | cons y u =>
      obtain ⟨-, huv⟩ := List.cons.inj huv
      exact Nat.succ_le_succ (hfirst u v huv)

/-! ## The same word among other bytes -/

/-- What stands before does not matter for what is found. -/
theorem find?_before (word before before' after : Bytes) :
    (find? word before after = none ∧ find? word before' after = none) ∨
      ∃ a x, word.length ≤ a.length ∧ find? word before after = some ⟨a ++ before, x⟩ ∧
        find? word before' after = some ⟨a ++ before', x⟩ := by
  induction after generalizing before before' with
  | nil => exact .inl ⟨rfl, rfl⟩
  | cons b rest ih =>
    by_cases hstart : word.isPrefixOf (b :: rest) = true
    · obtain ⟨x, hx⟩ := List.isPrefixOf_iff_prefix.mp hstart
      refine .inr ⟨word.reverse, x, Nat.le_of_eq List.length_reverse.symm, ?_, ?_⟩
      · rw [find?, if_pos hstart, ← hx, List.take_left, List.drop_left]
      · rw [find?, if_pos hstart, ← hx, List.take_left, List.drop_left]
    · rw [find?, if_neg hstart, find?, if_neg hstart]
      rcases ih (b :: before) (b :: before') with hnone | ⟨a, x, hlength, hsome, hsome'⟩
      · exact .inl hnone
      · refine .inr ⟨a ++ [b], x, ?_, ?_, ?_⟩
        · rw [List.length_append]
          omega
        · rw [hsome, List.append_assoc]
          rfl
        · rw [hsome', List.append_assoc]
          rfl

/-- A word in front of a tail is found whatever the tail is. -/
theorem find?_front {t w : Bytes} (hword : word ≠ []) (h : find? word before (t ++ w) = some q)
    (hle : w.length ≤ q.after.length) (w' : Bytes) :
    ∃ u, q.after = u ++ w ∧ find? word before (t ++ w') = some ⟨q.before, u ++ w'⟩ := by
  obtain ⟨a, hafter, hbefore, hfirst⟩ := of_find? h
  obtain ⟨u, ht, hu⟩ : ∃ u, t = a ++ word ++ u ∧ q.after = u ++ w := by
    rcases List.append_eq_append_iff.mp hafter with ⟨u, hu, hw⟩ | ⟨u, ht, hq⟩
    · have hu : u = [] := List.length_eq_zero_iff.mp (by
        have := congrArg List.length hw
        rw [List.length_append] at this
        omega)
      subst hu
      exact ⟨[], by simpa using hu.symm, by simpa using hw.symm⟩
    · exact ⟨u, ht, hq⟩
  have hclear : ¬ word <:+: a ++ word.dropLast := by
    rintro ⟨x, y, hxy⟩
    -- it would end before the first one does
    have hsplit : t ++ w = x ++ word ++ (y ++ [word.getLast hword] ++ u ++ w) := calc
      t ++ w = a ++ (word.dropLast ++ [word.getLast hword]) ++ u ++ w := by
        rw [ht, List.dropLast_concat_getLast hword]
      _ = (a ++ word.dropLast) ++ [word.getLast hword] ++ u ++ w := by simp
      _ = x ++ word ++ (y ++ [word.getLast hword] ++ u ++ w) := by
        rw [← hxy]
        simp
    have hlength := congrArg List.length hxy
    have hpositive : 0 < word.length := List.length_pos_iff.mpr hword
    have := hfirst _ _ hsplit
    simp only [List.length_append, List.length_dropLast] at hlength
    omega
  refine ⟨u, hu, ?_⟩
  have heq := find?_eq_some before (u ++ w') hword hclear
  rw [ht, hbefore, List.append_assoc _ u w', heq]

/-- **The first word behind a piece is found whatever the piece is.** -/
theorem find?_behind {before' c c' w : Bytes} {q' : Place} (h : find? word before (c ++ w) = some q)
    (h' : find? word before' (c' ++ w) = some q') (hle : q.after.length + word.length ≤ w.length)
    (hle' : q'.after.length + word.length ≤ w.length) : q.after = q'.after := by
  obtain ⟨a, hafter, -, hfirst⟩ := of_find? h
  obtain ⟨a', hafter', -, hfirst'⟩ := of_find? h'
  obtain ⟨g, rfl, hw⟩ := occurrence_behind hafter hle
  obtain ⟨g', rfl, hw'⟩ := occurrence_behind hafter' hle'
  have hlt := hfirst (c ++ g') q'.after (by rw [hw']; simp)
  have hlt' := hfirst' (c' ++ g) q.after (by rw [hw]; simp)
  simp only [List.length_append] at hlt hlt'
  have hsame : g ++ word ++ q.after = g' ++ word ++ q'.after := hw.symm.trans hw'
  rw [List.append_assoc, List.append_assoc] at hsame
  obtain ⟨-, hrest⟩ := List.append_inj hsame (by omega)
  exact List.append_cancel_left hrest

end Place

end PdfScene.Scan
