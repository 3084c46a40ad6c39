import PdfScene.Proofs.Object.Locality
import PdfScene.Proofs.Store.Contents

/-!
# What a place depends on

What is done at a place depends on the bytes around it as far as they are looked at. In front of a
tail that is not reached it does not depend on the tail (`Place.read?_front`, `Place.next_front`), and
behind an `endobj` it does not depend on what stands before that (`Place.defined_blocked`). So two
files that differ in one piece can be scanned side by side, in front of the piece and behind it.
-/

set_option autoImplicit false

namespace PdfScene.Scan

namespace Place

/-! ## The words that a scan comes to -/

/-- The places behind the words that a search comes to, which goes on from `next` of each. -/
def words (word : Bytes) (next : Place → Place) (p : Place) : List Place :=
  match find? word p.before p.after with
  | none => []
  | some q =>
    if (next q).after.length < p.after.length then q :: (next q).words word next else [q]
termination_by p.after.length

section Words

variable {word : Bytes} {next : Place → Place}

theorem words_eq (hword : word ≠ []) (hnext : ∀ q, (next q).after.length ≤ q.after.length)
    (p : Place) : p.words word next =
      match find? word p.before p.after with
      | none => []
      | some q => q :: (next q).words word next := by
  rw [words]
  split
  · rfl
  · rename_i q hfind
    exact if_pos (Nat.lt_of_le_of_lt (hnext q) (find?_length_lt hword hfind))

theorem length_lt_of_mem_words (hword : word ≠ []) {p q : Place} (h : q ∈ p.words word next) :
    q.after.length < p.after.length := by
  fun_induction words word next p with
  | case1 => cases h
  | case2 p q' hfind hlt ih =>
    rcases List.mem_cons.mp h with rfl | h
    · exact find?_length_lt hword hfind
    · exact Nat.lt_trans (ih h) hlt
  | case3 p q' hfind hge =>
    obtain rfl := List.mem_singleton.mp h
    exact find?_length_lt hword hfind

end Words

/-- The places behind the keywords of definitions that the scan comes to. -/
def keywords (p : Place) : List Place := p.words keyword Place.next

theorem keywords_eq (p : Place) : p.keywords =
    match find? keyword p.before p.after with
    | none => []
    | some q => q :: q.next.keywords := words_eq (by decide) next_length_le p

section FirstKeyword

variable {before after : Bytes} {q : Place}

theorem keywords_of_find? (h : find? keyword before after = some q) :
    keywords ⟨before, after⟩ = q :: q.next.keywords := by
  rw [keywords_eq, h]

theorem defined_of_find? (h : find? keyword before after = some q) :
    defined ⟨before, after⟩ = q.read?.toList ++ q.next.defined := by
  rw [defined_eq, h]

end FirstKeyword

/-- The scan comes to a definition that is written, and then to those behind its end. -/
theorem keywords_written {before sep after : Bytes} {d : Written} {e : ObjRef × Obj}
    (hsep : ¬ keyword <:+: sep) (hbefore : (sep.reverse ++ before).head?.all Byte.endsToken = true)
    (hread : (Lookahead.ofBytes (d.bytes ++ after)).readDefinition.1 = .ok e) :
    ∃ q, keywords ⟨before, sep ++ (d.bytes ++ after)⟩ = q ::
      keywords ⟨(sep ++ d.header ++ keyword ++ d.content ++ endKeyword).reverse ++ before,
        d.afterEnd.bytes ++ after⟩ := by
  obtain ⟨q, hfind, hdefinition, hend⟩ := d.found after hsep hbefore
  have hq : q.read? = some (.ok e) := by
    rw [read?, reading?, hdefinition, Option.map_some, hread]
    rfl
  refine ⟨q, ?_⟩
  rw [keywords_of_find? hfind, next, hq, hend]
  rfl

/-- The places behind the words `trailer`. -/
def trailerWords (p : Place) : List Place := p.words trailerKeyword id

theorem trailerWords_eq (p : Place) : p.trailerWords =
    match find? trailerKeyword p.before p.after with
    | none => []
    | some q => q :: q.trailerWords := words_eq (by decide) (fun _ => Nat.le_refl _) p

/-- They are places behind that word. -/
theorem occurrence_of_mem_trailerWords {p q : Place} (h : q ∈ p.trailerWords) :
    ∃ a, p.after = a ++ trailerKeyword ++ q.after := by
  unfold trailerWords at h
  fun_induction words trailerKeyword id p with
  | case1 => cases h
  | case2 p q' hfind hlt ih =>
    obtain ⟨a, hafter, -, -⟩ := of_find? hfind
    rcases List.mem_cons.mp h with rfl | h
    · exact ⟨a, hafter⟩
    · obtain ⟨b, hb⟩ := ih h
      have hb : q'.after = b ++ trailerKeyword ++ q.after := hb
      exact ⟨a ++ trailerKeyword ++ b, by rw [hafter, hb]; simp⟩
  | case3 p q' hfind hge =>
    obtain ⟨a, hafter, -, -⟩ := of_find? hfind
    obtain rfl := List.mem_singleton.mp h
    exact ⟨a, hafter⟩

theorem trailerWords_of_find? {before after : Bytes} {q : Place}
    (h : find? trailerKeyword before after = some q) :
    trailerWords ⟨before, after⟩ = q :: q.trailerWords := by
  rw [trailerWords_eq, h]

/-- What is read as a definition behind a keyword is read before the last `n` bytes. -/
def ReadsBefore (n : Nat) (q : Place) : Prop :=
  ∀ source, definition? q = some source →
    n ≤ (Lookahead.ofBytes source).readDefinition.2.rest.length

/-- What is read behind the word `trailer` is read before the last `n` bytes. -/
def TrailerBefore (n : Nat) (q : Place) : Prop :=
  n ≤ (Lookahead.ofBytes q.after).readObject.2.rest.length

theorem TrailerBefore.le {n : Nat} {q : Place} (h : q.TrailerBefore n) : n ≤ q.after.length :=
  Nat.le_trans h (Lookahead.readObject_local.onBytes.shrinks q.after)

/-! ## Places with nothing behind them -/

theorem defined_of_clear {p : Place} (h : ¬ keyword <:+: p.after) : p.defined = [] := by
  rw [defined_eq]
  split
  · rfl
  · rename_i q hfind
    obtain ⟨a, hafter, -, -⟩ := of_find? hfind
    exact absurd ⟨a, q.after, hafter.symm⟩ h

theorem trailers_of_clear {p : Place} (h : ¬ trailerKeyword <:+: p.after) : p.trailers = [] := by
  rw [trailers_eq]
  split
  · rfl
  · rename_i q hfind
    obtain ⟨a, hafter, -, -⟩ := of_find? hfind
    exact absurd ⟨a, q.after, hafter.symm⟩ h

/-! ## Places in front of a tail -/

variable {before s t w w' : Bytes}

theorem of_definition? {q : Place} {source : Bytes} (h : definition? q = some source) :
    ∃ header, header? (q.before.drop keyword.length) = some header ∧
      source = header.reverse ++ keyword ++ q.after := by
  unfold definition? at h
  split at h
  · obtain ⟨header, hheader, rfl⟩ := Option.map_eq_some_iff.mp h
    exact ⟨header, hheader, rfl⟩
  · cases h

/-- Whether a definition is seen does not depend on a tail that is not next. -/
theorem definition?_front (before : Bytes) (ht : t ≠ []) (w w' : Bytes) :
    (definition? ⟨before, t ++ w⟩ = none ∧ definition? ⟨before, t ++ w'⟩ = none) ∨
      ∃ s, definition? ⟨before, t ++ w⟩ = some (s ++ w) ∧
        definition? ⟨before, t ++ w'⟩ = some (s ++ w') := by
  obtain ⟨b, t, rfl⟩ := List.exists_cons_of_ne_nil ht
  by_cases hb : Byte.endsToken b = true
  · cases hheader : header? (before.drop keyword.length) with
    | none => exact .inl ⟨by simp [definition?, hb, hheader], by simp [definition?, hb, hheader]⟩
    | some header =>
      exact .inr ⟨header.reverse ++ keyword ++ b :: t, by simp [definition?, hb, hheader],
        by simp [definition?, hb, hheader]⟩
  · exact .inl ⟨by simp [definition?, hb], by simp [definition?, hb]⟩

/-- So what is read as a definition in front of a tail does not depend on it. -/
theorem read?_front (ht : t ≠ []) (h : ReadsBefore w.length ⟨before, t ++ w⟩)
    (h' : ReadsBefore w'.length ⟨before, t ++ w'⟩) :
    read? ⟨before, t ++ w⟩ = read? ⟨before, t ++ w'⟩ := by
  rcases definition?_front before ht w w' with ⟨hnone, hnone'⟩ | ⟨s, hs, hs'⟩
  · simp [read?, reading?, hnone, hnone']
  · have hread := Lookahead.readDefinition_local.same (h _ hs) (h' _ hs')
    simp only [read?, reading?, hs, hs', Option.map_some, hread]

/-- Nor does where the scan goes on, if that is in front of the tail as well. -/
theorem next_front (hread : read? ⟨before, t ++ w⟩ = read? ⟨before, t ++ w'⟩)
    (hle : w.length ≤ (next ⟨before, t ++ w⟩).after.length) (hend : endKeyword <:+: w) :
    ∃ before' u, next ⟨before, t ++ w⟩ = ⟨before', u ++ w⟩ ∧
      next ⟨before, t ++ w'⟩ = ⟨before', u ++ w'⟩ := by
  by_cases hsome : (read? ⟨before, t ++ w⟩).isSome = true
  · unfold next at hle ⊢
    rw [if_pos hsome] at hle ⊢
    rw [if_pos (hread ▸ hsome)]
    cases hfind : find? endKeyword before (t ++ w) with
    | none =>
      exact absurd (hend.trans (List.suffix_append t w).isInfix)
        (not_isInfix_of_find? (by decide) hfind)
    | some q =>
      rw [hfind] at hle
      obtain ⟨u, hu, hfind'⟩ := find?_front (by decide) hfind hle w'
      refine ⟨q.before, u, ?_, ?_⟩
      · rw [← hu]
        rfl
      · rw [hfind']
        rfl
  · refine ⟨before, t, ?_, ?_⟩
    · rw [next, if_neg hsome]
    · rw [next, if_neg (hread ▸ hsome)]

/-- Nor does what is read as a trailer. -/
theorem dict?_front (h : TrailerBefore w.length ⟨before, t ++ w⟩)
    (h' : TrailerBefore w'.length ⟨before, t ++ w'⟩) :
    dict? ⟨before, t ++ w⟩ = dict? ⟨before, t ++ w'⟩ := by
  have hread : Obj.ofBytes (t ++ w) = Obj.ofBytes (t ++ w') :=
    Lookahead.readObject_local.same h h'
  simp only [dict?, hread]

/-! ## Places behind a piece -/

theorem spanSome?_blocked {p : UInt8 → Bool} {x : UInt8} {c : Bytes} (hx : x ∈ c)
    (hp : p x = false) (z : Bytes) :
    (spanSome? p c = none ∧ spanSome? p (c ++ z) = none) ∨ ∃ head rest, x ∈ rest ∧
      spanSome? p c = some (head, rest) ∧ spanSome? p (c ++ z) = some (head, rest ++ z) := by
  have hmem : x ∈ c.dropWhile p := by
    have hsplit : x ∈ c.takeWhile p ++ c.dropWhile p := by rwa [List.takeWhile_append_dropWhile]
    rcases List.mem_append.mp hsplit with h | h
    · exact absurd (List.mem_takeWhile_imp h) (by simp [hp])
    · exact h
  have hdrop : (c ++ z).dropWhile p = c.dropWhile p ++ z := by
    rw [List.dropWhile_append, if_neg]
    simpa using List.ne_nil_of_mem hmem
  have htake : (c ++ z).takeWhile p = c.takeWhile p := by
    rw [List.takeWhile_append, if_neg]
    intro hlength
    have := congrArg List.length (List.takeWhile_append_dropWhile (p := p) (l := c))
    rw [List.length_append] at this
    exact List.ne_nil_of_mem hmem (List.length_eq_zero_iff.mp (by omega))
  unfold spanSome?
  rw [htake, hdrop]
  by_cases hempty : (c.takeWhile p).isEmpty = true
  · exact .inl ⟨if_pos hempty, if_pos hempty⟩
  · exact .inr ⟨c.takeWhile p, c.dropWhile p, hmem, if_neg hempty, if_neg hempty⟩

/-- A header is not looked for beyond a byte that is in no header. -/
theorem header?_blocked {x : UInt8} {c : Bytes} (hx : x ∈ c) (hblank : Byte.isBlank x = false)
    (hdigit : Byte.isDigit x = false) (z : Bytes) : header? (c ++ z) = header? c := by
  unfold header?
  rcases spanSome?_blocked hx hblank z with ⟨h, h'⟩ | ⟨blanks, c₁, hx₁, h, h'⟩
  · rw [h, h']
  rw [h, h']
  dsimp only [bind, Option.bind]
  rcases spanSome?_blocked hx₁ hdigit z with ⟨h, h'⟩ | ⟨generation, c₂, hx₂, h, h'⟩
  · rw [h, h']
  rw [h, h']
  dsimp only
  rcases spanSome?_blocked hx₂ hblank z with ⟨h, h'⟩ | ⟨blanks', c₃, hx₃, h, h'⟩
  · rw [h, h']
  rw [h, h']
  dsimp only
  rcases spanSome?_blocked hx₃ hdigit z with ⟨h, h'⟩ | ⟨number, c₄, hx₄, h, h'⟩
  · rw [h, h']
  rw [h, h']
  obtain ⟨b, c₄, rfl⟩ := List.exists_cons_of_ne_nil (List.ne_nil_of_mem hx₄)
  rfl

/-- What is read behind a keyword depends on nothing before an earlier keyword. -/
theorem read?_blocked {a y : Bytes} (ha : keyword.length ≤ a.length) (hy : 0x6A ∈ y)
    (z z' x : Bytes) : read? ⟨a ++ (y ++ z), x⟩ = read? ⟨a ++ (y ++ z'), x⟩ := by
  have hheader : ∀ z : Bytes, header? ((a ++ (y ++ z)).drop keyword.length) =
      header? (a.drop keyword.length ++ y) := by
    intro z
    rw [List.drop_append_of_le_length ha, ← List.append_assoc]
    exact header?_blocked (List.mem_append_right _ hy) rfl rfl z
  simp only [read?, reading?, definition?, hheader]

/-- **Behind an `endobj` the definitions do not depend on what stands before it.** -/
theorem defined_blocked {y : Bytes} (hy : 0x6A ∈ y) (z z' x : Bytes) :
    defined ⟨y ++ z, x⟩ = defined ⟨y ++ z', x⟩ := by
  obtain ⟨n, hn⟩ : ∃ n, n = x.length := ⟨_, rfl⟩
  induction n using Nat.strongRecOn generalizing y x with
  | ind n ih =>
    rw [defined_eq, defined_eq]
    dsimp only
    rcases find?_before keyword (y ++ z) (y ++ z') x with ⟨h, h'⟩ | ⟨a, x₁, ha, h, h'⟩
    · rw [h, h']
    rw [h, h']
    dsimp only
    have hread := read?_blocked ha hy z z' x₁
    have hlt : x₁.length < x.length := find?_length_lt (by decide) h
    have hlater : ∀ (b : Bytes) {x' : Bytes}, x'.length < x.length →
        defined ⟨b ++ (y ++ z), x'⟩ = defined ⟨b ++ (y ++ z'), x'⟩ := by
      intro b x' hx'
      have hmem : 0x6A ∈ b ++ y := List.mem_append_right b hy
      have heq := ih x'.length (hn ▸ hx') hmem x' rfl
      rwa [List.append_assoc, List.append_assoc] at heq
    have hnext : defined (next ⟨a ++ (y ++ z), x₁⟩) = defined (next ⟨a ++ (y ++ z'), x₁⟩) := by
      unfold next
      rw [hread]
      split
      · dsimp only
        rcases find?_before endKeyword (a ++ (y ++ z)) (a ++ (y ++ z')) x₁ with
          ⟨h, h'⟩ | ⟨b, x₂, -, h, h'⟩
        · rw [h, h']
          exact hlater a hlt
        · rw [h, h', ← List.append_assoc b, ← List.append_assoc b]
          exact hlater (b ++ a) (Nat.lt_trans (find?_length_lt (by decide) h) hlt)
      · exact hlater a hlt
    rw [hread, hnext]

/-- Trailers do not depend on what stands before them. -/
theorem trailers_before (before before' after : Bytes) :
    trailers ⟨before, after⟩ = trailers ⟨before', after⟩ := by
  obtain ⟨n, hn⟩ : ∃ n, n = after.length := ⟨_, rfl⟩
  induction n using Nat.strongRecOn generalizing before before' after with
  | ind n ih =>
    rw [trailers_eq, trailers_eq]
    dsimp only
    rcases find?_before trailerKeyword before before' after with
      ⟨h, h'⟩ | ⟨a, x, -, h, h'⟩
    · rw [h, h']
    · rw [h, h']
      have hlt : x.length < after.length := find?_length_lt (by decide) h
      dsimp only
      rw [ih _ (hn ▸ hlt) (a ++ before) (a ++ before') x rfl]
      rfl

/-- The first trailer, and those behind it. -/
theorem trailers_cons {before a b : Bytes} {d : Dict}
    (hclear : ¬ trailerKeyword <:+: a ++ trailerKeyword.dropLast)
    (hread : Obj.ofBytes b = .ok (.dict d)) :
    trailers ⟨before, a ++ trailerKeyword ++ b⟩ = .ok d :: trailers ⟨[], b⟩ := by
  have hdict : dict? ⟨(a ++ trailerKeyword).reverse ++ before, b⟩ = some (.ok d) := by
    rw [dict?, hread]
  rw [trailers_of_find? (find?_eq_some before b (by decide) hclear), hdict, trailers_before _ [] b]
  rfl

end Place

end PdfScene.Scan
