import PdfScene.Proofs.Content.Pieces

/-!
# Segments — content that comes in parts

The content of a page may be split over several streams, whose data are joined by line feeds. Where a
segment ends between operations, joining loses nothing: reading all of it is reading one segment after
the other. `Division.isClosed` says that of a segment: at its end no operand waits for an operator, and
no container is open and no samples. It need not say that no string is open, since such a string is an
operand or stands in a container; nor is a number the line feed might not end any different.
-/

set_option autoImplicit false

namespace PdfScene.Operation

open Token

/-! ## Nothing is pending -/

/-- At the end of the content, nothing waits for what may come. -/
def Division.isClosed (d : Division) : Bool :=
  match d.stillOpen, d.pieces.getLast? with
  | some [], some (.operand _) => false
  | some [], _ => true
  | _, _ => false

theorem Division.isClosed_iff {d : Division} :
    d.isClosed = true ↔ d.stillOpen = some [] ∧ ∀ o, d.pieces.getLast? ≠ some (.operand o) := by
  unfold Division.isClosed
  split
  · rename_i o hlast
    simp [hlast]
  · rename_i hlast
    exact ⟨fun _ => ⟨‹_›, hlast⟩, fun _ => rfl⟩
  · rename_i hopen _
    exact ⟨nofun, fun h => absurd h.1 (by assumption)⟩

theorem Division.isClosed_of_prepend {d : Division} {ps : List Piece}
    (h : (d.prepend ps).isClosed = true) : d.isClosed = true := by
  rw [isClosed_iff] at h ⊢
  refine ⟨h.1, fun o ho => h.2 o ?_⟩
  rw [prepend, List.getLast?_append, ho]
  rfl

/-! ## Joining -/

/-- Content is divided from its first token on. -/
theorem divide_congr {stack : List Frame} {bs bs' : Bytes} (h : scan bs = scan bs') :
    divide stack bs = divide stack bs' := by
  cases hs : scan bs with
  | mk result rest =>
    have hs' := h.symm.trans hs
    cases result with
    | error fault => rw [divide_error hs, divide_error hs']
    | ok t =>
      by_cases ht : t = .eof
      · subst ht
        rw [divide_eof hs, divide_eof hs']
      · rw [divide_ok hs ht, divide_ok hs' ht]

/-- A literal is an operand, or stays in the container around it. -/
theorem deal_literal {t : Token} (ht : t.isLiteral = true) (stack : List Frame) :
    ∃ ps stack', deal stack t = .pieces ps stack' ∧ stack'.length = stack.length ∧
      (stack = [] → ∃ o, ps = [.operand o]) := by
  have hcontainer : ∀ (f : Frame) (outer : List Frame) (r : Reader),
      Reader.feed ⟨[], f :: outer⟩ t = .more r → r.stack.length = outer.length + 1 →
      ∃ ps stack', deal (f :: outer) t = .pieces ps stack' ∧
        stack'.length = (f :: outer).length ∧ (f :: outer = [] → ∃ o, ps = [.operand o]) := by
    intro f outer r hfed hlength
    refine ⟨r.operands.reverse.map .operand, r.stack, ?_, hlength, nofun⟩
    rw [deal_of_not_word fun h => absurd h (List.cons_ne_nil _ _), hfed]
  cases t <;> cases ht
  all_goals
    cases stack with
    | nil => exact ⟨_, _, rfl, rfl, fun _ => ⟨_, rfl⟩⟩
    | cons f outer =>
      rcases f with items | ⟨image, entries, _ | key⟩
      · exact hcontainer _ _ _ rfl rfl
      · exact hcontainer _ _ _ rfl rfl
      · exact hcontainer _ _ _ rfl rfl

/-- So where a literal runs to the end, something is pending. -/
theorem not_isClosed_literal {t : Token} {stack : List Frame} {bs : Bytes}
    (hscan : scan bs = (.ok t, [])) (ht : t.isLiteral = true) :
    (divide stack bs).isClosed = false := by
  obtain ⟨ps, stack', hdeal, hlength, hoperand⟩ := deal_literal ht stack
  rw [divide_ok hscan (by rintro rfl; cases ht), hdeal]
  dsimp only
  rw [divide_empty, Bool.eq_false_iff, ne_eq, Division.isClosed_iff]
  rintro ⟨hopen, hlast⟩
  have hstack' : stack' = [] := Option.some.inj hopen
  subst hstack'
  obtain ⟨o, rfl⟩ := hoperand (List.eq_nil_of_length_eq_zero hlength.symm)
  exact hlast o rfl

/-- So a line feed behind a closed segment ends whatever token is the first. -/
theorem breaks_of_isClosed {stack : List Frame} {a : Bytes} (h : (divide stack a).isClosed = true)
    (hmore : (scan a).1 ≠ .ok .eof) : Breaks scan a :=
  (scan_lineFeed hmore).resolve_right fun ⟨t, hscan, ht⟩ => by
    rw [not_isClosed_literal hscan ht] at h
    cases h

/-- **A closed segment is divided as if nothing came behind the line feed, and what comes there as if
nothing had been before.** -/
theorem divide_lineFeed {stack : List Frame} {a : Bytes} (h : (divide stack a).isClosed = true)
    (b : Bytes) : divide stack (a ++ 0x0A :: b) = (divide [] b).prepend (divide stack a).pieces := by
  induction hlength : a.length using Nat.strongRecOn generalizing stack a with
  | ind n ih =>
  have hbreaks := breaks_of_isClosed h
  cases hs : scan a with
  | mk result rest =>
  rw [hs] at hbreaks
  cases result with
  | error fault =>
    have hnext := hbreaks nofun b
    rw [hs] at hnext
    rw [divide_error hs] at h ⊢
    rw [divide_error hnext]
    exact ih _ (hlength ▸ scan_progress hs nofun) h rfl
  | ok t =>
  by_cases ht : t = .eof
  · subst ht
    have hskip := skipBlanks_eq_nil_of_scan_eof (congrArg Prod.fst hs)
    rw [divide_eof hs] at h ⊢
    obtain ⟨hopen, -⟩ := Division.isClosed_iff.mp h
    cases hopen
    have hscan : scan (a ++ 0x0A :: b) = scan b := by
      unfold scan
      rw [skipBlanks_lineFeed_nil hskip]
    rw [divide_congr hscan]
    rfl
  · have hok : Except.ok t ≠ (Except.ok .eof : Except TokenFault Token) := fun heq =>
      ht (Except.ok.inj heq)
    have hnext := hbreaks hok b
    have hprogress := scan_progress hs hok
    rw [hs] at hnext
    rw [divide_ok hs ht] at h ⊢
    rw [divide_ok hnext ht]
    cases hdeal : deal stack t with
    | pieces ps stack' =>
      rw [hdeal] at h
      have hrest := ih _ (hlength ▸ hprogress) (Division.isClosed_of_prepend h) rfl
      dsimp only
      rw [hrest]
      simp only [Division.prepend, List.append_assoc]
    | image entries =>
      rw [hdeal] at h
      dsimp only at h ⊢
      split at h
      · rename_i hcomplete
        have hshorter : (InlineData.scan rest).2.length < n :=
          hlength ▸ Nat.lt_of_le_of_lt (InlineData.scan_length_le rest) hprogress
        have hrest := ih _ hshorter (Division.isClosed_of_prepend h) rfl
        rw [if_pos hcomplete, if_pos (InlineData.isComplete_lineFeed hcomplete b),
          InlineData.scan_breaks hcomplete]
        dsimp only
        rw [hrest]
        simp only [Division.prepend, List.append_assoc]
      · cases h

/-- What a word or an image leaves behind it is nothing. -/
theorem ofPieces_append {since : List Obj} {ps : List Piece} (hsince : ps = [] → since = [])
    (hlast : ∀ o, ps.getLast? ≠ some (.operand o)) (qs : List Piece) :
    ofPieces since (ps ++ qs) = ofPieces since ps ++ ofPieces [] qs := by
  induction ps generalizing since with
  | nil =>
    rw [hsince rfl]
    rfl
  | cons p ps ih =>
    have hlater : ∀ o, ps.getLast? ≠ some (.operand o) := fun o ho => by
      refine hlast o ?_
      rw [List.getLast?_cons, ho]
      rfl
    cases p with
    | operand o =>
      have hmore : ps = [] → since ++ [o] = [] := by
        rintro rfl
        exact absurd rfl (hlast o)
      exact ih hmore hlater
    | word w =>
      rw [List.cons_append, ofPieces, ofPieces, ih (fun _ => rfl) hlater, List.append_assoc]
    | image entries data =>
      rw [List.cons_append, ofPieces, ofPieces, ih (fun _ => rfl) hlater, List.cons_append]

/-- **The operations of content behind a closed segment are those of the segment and then those of the
rest.** -/
theorem readAll_joined {a : Bytes} (h : (divide [] a).isClosed = true) (b : Bytes) :
    readAll (a ++ 0x0A :: b) = readAll a ++ readAll b := by
  have hlast := (Division.isClosed_iff.mp h).2
  rw [readAll_eq, readAll_eq a, readAll_eq b, divide_lineFeed h]
  exact ofPieces_append (fun _ => rfl) hlast _

/-- A line feed in front of content is blank. -/
theorem readAll_lineFeed (bs : Bytes) : readAll (0x0A :: bs) = readAll bs := by
  have hscan : scan (0x0A :: bs) = scan bs := rfl
  rw [readAll_eq, readAll_eq bs, divide_congr hscan]

/-- **Any number of segments, all of them closed but perhaps the last, are read one after the other.** -/
theorem readAll_intercalate {segments : List Bytes}
    (h : ∀ s ∈ segments.dropLast, (divide [] s).isClosed = true) :
    readAll ([0x0A].intercalate segments) = segments.flatMap readAll := by
  induction segments with
  | nil =>
    rw [readAll_eq, List.intercalate_nil, divide_empty]
    rfl
  | cons s segments ih =>
    cases segments with
    | nil => rw [List.intercalate_singleton, List.flatMap_singleton]
    | cons s' segments =>
      rw [List.dropLast_cons_cons, List.forall_mem_cons] at h
      rw [List.intercalate_cons_cons, List.append_assoc, List.flatMap_cons, ← ih h.2]
      exact readAll_joined h.1 _

end PdfScene.Operation
