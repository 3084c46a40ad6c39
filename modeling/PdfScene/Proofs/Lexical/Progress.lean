import Mathlib
import PdfScene.Lexical.Cursor
import PdfScene.Proofs.Lexical.Closing

/-!
# Progress of cursors

Whatever is read, and wherever a cursor has been put before, what follows it is the end of its piece
(`Within`). So its position says all there is to say about it, and to seek that position is to have the
same cursor again.

A token is the end of the input or takes at least one byte, malformed or not, and raw data takes what it
takes from the front. A loop that reads tokens up to the end, whatever else it reads between them, has
therefore no more tokens than bytes in front of it (`exists_eof`).
-/

set_option autoImplicit false

namespace PdfScene

namespace InlineData

theorem body_suffix (done bs : Bytes) : (body done bs).2 <:+ bs := by
  fun_induction body done bs with
  | case1 => exact List.suffix_refl _
  | case2 done b rest => exact List.suffix_cons b rest
  | case3 done b rest _ ih => exact ih.trans (List.suffix_cons b rest)

theorem behindBlank_suffix (bs : Bytes) : behindBlank bs <:+ bs := by
  unfold behindBlank
  split
  · exact List.tail_suffix bs
  · exact List.suffix_refl bs

theorem scan_suffix (bs : Bytes) : (scan bs).2 <:+ bs := by
  rw [scan_eq]
  exact (body_suffix [] _).trans (behindBlank_suffix bs)

end InlineData

namespace Cursor

/-! ## Moving a cursor -/

/-- One way to move a cursor. -/
inductive Motion where
  | token
  | inlineData
  | streamBody (length : Option Nat)
  | seek (pos : Nat)
  deriving DecidableEq, Repr

/-- Whether it reads on from where the cursor is. -/
def Motion.isReading : Motion → Bool
  | .seek _ => false
  | _ => true

/-- The cursor behind one motion. A position that is refused leaves it where it was, and so does a body
that there can be no room for. -/
def move (c : Cursor) : Motion → Cursor
  | .token => c.next.2
  | .inlineData => c.inlineData.2
  | .streamBody length => (c.streamBody length).toOption.elim c Prod.snd
  | .seek pos => (c.seek pos).toOption.getD c

def after (c : Cursor) (motions : List Motion) : Cursor := motions.foldl move c

/-- A cursor in the piece `source` that starts at `origin`. -/
structure Within (source : Bytes) (origin : Nat) (c : Cursor) : Prop where
  source_eq : c.source = source
  origin_eq : c.origin = origin
  suffix : c.rest <:+ source

variable {source : Bytes} {origin : Nat} {c d : Cursor}

theorem within_ofBytes (source : Bytes) (origin : Nat) : Within source origin (ofBytes source origin) :=
  ⟨rfl, rfl, List.suffix_refl source⟩

/-- A reading that leaves the end of what it found stays in the piece. -/
theorem Within.read (hc : Within source origin c) {rest : Bytes} (h : rest <:+ c.rest) :
    Within source origin { c with rest } :=
  ⟨hc.source_eq, hc.origin_eq, h.trans hc.suffix⟩

theorem Within.seek (hc : Within source origin c) {pos : Nat} (h : c.seek pos = .ok d) :
    Within source origin d := by
  unfold Cursor.seek at h
  split at h
  · cases h
    refine ⟨hc.source_eq, hc.origin_eq, ?_⟩
    have hdrop := List.drop_suffix (pos - c.origin) c.source
    rwa [hc.source_eq] at hdrop ⊢
  · cases h

/-- A body is followed by the end of what follows the cursor. -/
theorem streamBody_suffix {length : Option Nat} {data : Bytes} (h : c.streamBody length = .ok (data, d)) :
    ∃ rest, rest <:+ c.rest ∧ d = { c with rest } := by
  unfold Cursor.streamBody at h
  cases hroom : StreamBody.hasRoom length with
  | true =>
    rw [StreamBody.scan_of_hasRoom hroom] at h
    cases h
    exact ⟨_, (StreamBody.body_local length).suffix c.rest, rfl⟩
  | false =>
    rw [StreamBody.scan_of_not_hasRoom hroom] at h
    cases h

theorem Within.streamBody (hc : Within source origin c) {length : Option Nat} {body : Bytes × Cursor}
    (h : c.streamBody length = .ok body) : Within source origin body.2 := by
  obtain ⟨rest, hrest, hbody⟩ := streamBody_suffix h
  exact hbody ▸ hc.read hrest

/-- **No motion leaves the piece.** -/
theorem Within.move (hc : Within source origin c) (m : Motion) : Within source origin (c.move m) := by
  cases m with
  | token => exact hc.read (Token.scan_local.suffix c.rest)
  | inlineData => exact hc.read (InlineData.scan_suffix c.rest)
  | streamBody length =>
    show Within source origin ((c.streamBody length).toOption.elim c Prod.snd)
    cases hbody : c.streamBody length with
    | error p => exact hc
    | ok body => exact hc.streamBody hbody
  | seek pos =>
    show Within source origin ((c.seek pos).toOption.getD c)
    cases hseek : c.seek pos with
    | error e => exact hc
    | ok d => exact hc.seek hseek

theorem Within.after (hc : Within source origin c) (motions : List Motion) :
    Within source origin (c.after motions) := by
  induction motions generalizing c with
  | nil => exact hc
  | cons m motions ih => exact ih (hc.move m)

/-! ## Positions -/

theorem Within.stop_eq (hc : Within source origin c) : c.stop = origin + source.length := by
  rw [stop, hc.source_eq, hc.origin_eq]

theorem Within.position_add_length (hc : Within source origin c) :
    c.position + c.rest.length = origin + source.length := by
  have hrest := hc.suffix.length_le
  rw [position, hc.stop_eq]
  omega

/-- **The position of one cursor is all that another one of the piece needs to take its place.** -/
theorem Within.seek_position (hc : Within source origin c) (hd : Within source origin d) :
    d.seek c.position = .ok c := by
  have hlength := hc.suffix.length_le
  have hposition := hc.position_add_length
  have hinside : d.origin ≤ c.position ∧ c.position ≤ d.stop := by
    rw [hd.stop_eq, hd.origin_eq]
    omega
  have hrest : d.source.drop (c.position - d.origin) = c.rest := by
    have hleft : c.position - origin = source.length - c.rest.length := by omega
    rw [hd.source_eq, hd.origin_eq, hleft]
    exact (List.suffix_iff_eq_drop.mp hc.suffix).symm
  rw [Cursor.seek, if_pos hinside, hrest, hd.source_eq, hd.origin_eq, ← hc.source_eq, ← hc.origin_eq]

/-! ## Progress -/

/-- Only the scan decides whether a token is the end. -/
theorem next_eq_eof_iff : c.next.1 = .ok .eof ↔ (Token.scan c.rest).1 = .ok .eof := by
  show (Token.scan c.rest).1.mapError _ = .ok .eof ↔ _
  cases (Token.scan c.rest).1 with
  | error fault => exact ⟨nofun, nofun⟩
  | ok t => exact ⟨fun h => congrArg Except.ok (Except.ok.inj h), fun h => h ▸ rfl⟩

theorem rest_next_of_eof (h : c.next.1 = .ok .eof) : c.next.2.rest = [] := by
  have hblank := Token.skipBlanks_eq_nil_of_scan_eof (next_eq_eof_iff.mp h)
  show (Token.scan c.rest).2 = []
  rw [Token.scan_nil hblank]

theorem rest_next_lt (h : c.next.1 ≠ .ok .eof) : c.next.2.rest.length < c.rest.length :=
  Token.scan_progress rfl fun heof => h (next_eq_eof_iff.mpr heof)

theorem rest_next_le (c : Cursor) : c.next.2.rest.length ≤ c.rest.length :=
  Token.scan_local.shrinks c.rest

/-- Nothing that is read moves a cursor back. -/
theorem rest_move_le {m : Motion} (hm : m.isReading = true) :
    (c.move m).rest.length ≤ c.rest.length := by
  cases m with
  | token => exact rest_next_le c
  | inlineData => exact InlineData.scan_length_le c.rest
  | streamBody length =>
    show ((c.streamBody length).toOption.elim c Prod.snd).rest.length ≤ c.rest.length
    cases hbody : c.streamBody length with
    | error p => exact Nat.le_refl _
    | ok body =>
      obtain ⟨rest, hrest, hd⟩ := streamBody_suffix hbody
      show body.2.rest.length ≤ c.rest.length
      rw [hd]
      exact hrest.length_le
  | seek pos => cases hm

/-- **Of more tokens than there are bytes left, one is the end**, and so it is if other things are read
between them. -/
theorem exists_eof {motions : List Motion} (hreading : ∀ m ∈ motions, m.isReading = true)
    (hmany : c.rest.length < motions.count .token) :
    ∃ before behind, motions = before ++ .token :: behind ∧ before.count .token ≤ c.rest.length ∧
      (c.after before).next.1 = .ok .eof := by
  induction motions generalizing c with
  | nil => exact absurd hmany (Nat.not_lt_zero _)
  | cons m motions ih =>
    rw [List.forall_mem_cons] at hreading
    by_cases heof : m = .token ∧ c.next.1 = .ok .eof
    · obtain ⟨rfl, heof⟩ := heof
      exact ⟨[], motions, rfl, Nat.zero_le _, heof⟩
    -- this motion takes a byte if it takes a token
    have htaken : (c.move m).rest.length + [m].count .token ≤ c.rest.length := by
      by_cases hm : m = .token
      · subst hm
        exact rest_next_lt fun h => heof ⟨rfl, h⟩
      · rw [List.count_singleton, if_neg (by simpa using hm), Nat.add_zero]
        exact rest_move_le hreading.1
    rw [← List.singleton_append, List.count_append] at hmany
    obtain ⟨before, behind, rfl, hcount, hend⟩ := ih hreading.2 (c := c.move m) (by omega)
    refine ⟨m :: before, behind, rfl, ?_, hend⟩
    rw [← List.singleton_append, List.count_append]
    omega

/-- **Reading makes progress, and a position brings it back.** Let a cursor have been moved in any way
over a piece of input. A token, malformed or not, moves it on unless that is the end of the input, and
then it stands at the end of the piece; raw data never moves it back, if it can be read. It never leaves
the piece. Its
position leads back to the very same cursor from wherever it is moved later. And a loop that only reads,
and ends when a token is the end of the input, asks for one token more than there are bytes at most. -/
theorem progress_and_return (source : Bytes) (origin : Nat) (motions : List Motion) :
    let c := (ofBytes source origin).after motions
    (c.next.1 = .ok .eof ∧ c.next.2.position = origin + source.length ∨
      c.next.1 ≠ .ok .eof ∧ c.position < c.next.2.position) ∧
    c.position ≤ c.inlineData.2.position ∧
    (∀ length data d, c.streamBody length = .ok (data, d) → c.position ≤ d.position) ∧
    (origin ≤ c.position ∧ c.position ≤ origin + source.length) ∧
    (∀ later, (c.after later).seek c.position = .ok c) ∧
    ∀ later : List Motion, (∀ m ∈ later, m.isReading = true) → source.length < later.count .token →
      ∃ before behind, later = before ++ .token :: behind ∧ before.count .token ≤ source.length ∧
        (c.after before).next.1 = .ok .eof := by
  intro c
  have hc : Within source origin c := (within_ofBytes source origin).after motions
  have hposition := hc.position_add_length
  have hlength := hc.suffix.length_le
  have hforward (m : Motion) (hm : m.isReading = true) : c.position ≤ (c.move m).position := by
    have hmoved := (hc.move m).position_add_length
    have hrest := rest_move_le (c := c) hm
    omega
  have hnext := (hc.move .token).position_add_length
  have hbody (length : Option Nat) (data : Bytes) (d : Cursor)
      (h : c.streamBody length = .ok (data, d)) : c.position ≤ d.position := by
    have hmove : c.move (.streamBody length) = d := by rw [move, h]; rfl
    exact hmove ▸ hforward (.streamBody length) rfl
  refine ⟨?_, hforward .inlineData rfl, hbody, ?_,
    fun later => hc.seek_position (hc.after later), fun later hreading hmany => ?_⟩
  · by_cases heof : c.next.1 = .ok .eof
    · refine .inl ⟨heof, ?_⟩
      have hrest := rest_next_of_eof heof
      rw [move, hrest, List.length_nil] at hnext
      exact hnext
    · refine .inr ⟨heof, ?_⟩
      have hrest := rest_next_lt heof
      rw [move] at hnext
      omega
  · omega
  · obtain ⟨before, behind, hlater, hcount, heof⟩ := exists_eof (c := c) hreading (by omega)
    exact ⟨before, behind, hlater, by omega, heof⟩

/-- In a digit and a closing parenthesis, from the blank between them on: the parenthesis is malformed,
and samples are read behind it, as is a body of no stated length. -/
theorem progress_and_return_closingParen :
    let c := (ofBytes (Bytes.ofAscii "7 )") 5).after [.inlineData, .seek 6]
    let later : List Motion := [.token, .inlineData, .token, .streamBody none, .token, .token]
    (∀ m ∈ later, m.isReading = true) ∧ (Bytes.ofAscii "7 )").length < later.count .token ∧
      (∃ data d, c.streamBody none = .ok (data, d) ∧ c.position ≤ d.position) ∧
      (c.after later).seek c.position = .ok c ∧
      ∃ before behind, later = before ++ .token :: behind ∧
        before.count .token ≤ (Bytes.ofAscii "7 )").length ∧ (c.after before).next.1 = .ok .eof := by
  intro c later
  have hreading : ∀ m ∈ later, m.isReading = true := by decide
  have hmany : (Bytes.ofAscii "7 )").length < later.count .token := by decide
  obtain ⟨-, -, hbody, -, hreturn, hends⟩ :=
    progress_and_return (Bytes.ofAscii "7 )") 5 [.inlineData, .seek 6]
  have hread : ∃ data d, c.streamBody none = .ok (data, d) := ⟨_, _, rfl⟩
  obtain ⟨data, d, hd⟩ := hread
  exact ⟨hreading, hmany, ⟨data, d, hd, hbody none data d hd⟩, hreturn later,
    hends later hreading hmany⟩

end Cursor

end PdfScene
