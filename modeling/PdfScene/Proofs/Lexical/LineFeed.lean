import PdfScene.Lexical.Raw

/-!
# What a line feed ends

Pieces of content are joined by line feeds, so it matters where a scan that meets one stops. Nearly
all scans leave it: `Breaks` says that a scan finds the same whether the input ends or goes on
behind a line feed. Three kinds of token do not. A literal string and a hex string that are still
open take the line feed in, and a sign without a digit skips it, since line ends may follow a sign.
`Token.scanFrom_breaks` says that there are no others.
-/

set_option autoImplicit false

namespace PdfScene

open Byte

/-- A byte of a class is none that is not in it. -/
theorem Byte.ne_of_class {p : UInt8 → Bool} {c b : UInt8} (hc : p c = true) (hb : p b = false) :
    (c == b) = false := by
  rw [beq_eq_false_iff_ne]
  rintro rfl
  rw [hb] at hc
  cases hc

/-- What ends a token is no digit, not even a hex one. -/
theorem Byte.not_digit_of_endsToken {e : UInt8} (he : endsToken e = true) :
    isDigit e = false ∧ hexValue? e = none := by
  simp only [endsToken, isBlank, isDelimiter, Bool.or_eq_true, beq_iff_eq, or_assoc] at he
  rcases he with rfl | rfl | rfl | rfl | rfl | rfl | rfl | rfl | rfl | rfl | rfl | rfl | rfl | rfl |
    rfl | rfl <;> exact ⟨rfl, rfl⟩

/-- A scan of `s` that the byte `e` behind `s` ends: it finds the same and leaves the same of `s`. -/
def BreaksAt {α : Type} (e : UInt8) (f : Bytes → α × Bytes) (s : Bytes) : Prop :=
  ∀ b, f (s ++ e :: b) = ((f s).1, (f s).2 ++ e :: b)

/-- A scan of `s` that a line feed behind `s` ends. -/
def Breaks {α : Type} (f : Bytes → α × Bytes) (s : Bytes) : Prop :=
  ∀ b, f (s ++ 0x0A :: b) = ((f s).1, (f s).2 ++ 0x0A :: b)

namespace BreaksAt

variable {α β : Type} {e : UInt8} {s : Bytes}

/-- One scan after the other. -/
theorem bind {f : Bytes → α × Bytes} {g : α → Bytes → β × Bytes} (hf : BreaksAt e f s)
    (hg : BreaksAt e (g (f s).1) (f s).2) : BreaksAt e (fun bs => g (f bs).1 (f bs).2) s := by
  intro b
  dsimp only
  rw [hf b]
  exact hg b

/-- Bytes of a class that `e` is not in. -/
theorem span {p : UInt8 → Bool} (hp : p e = false) (s : Bytes) :
    BreaksAt e (fun bs => (bs.takeWhile p, bs.dropWhile p)) s := by
  intro b
  induction s with
  | nil => simp [hp]
  | cons c s ih =>
    obtain ⟨htake, hdrop⟩ := Prod.mk.inj ih
    by_cases hc : p c = true
    · simp [hc, htake, hdrop]
    · simp [hc]

end BreaksAt

/-! ## Numerals -/

namespace Numeral

section

variable {e : UInt8} (he : endsToken e = true)

include he

theorem digits_breaksAt (n : Numeral) (s : Bytes) : BreaksAt e (digits n) s := by
  intro b
  induction s generalizing n with
  | nil =>
    simp [digits, (not_digit_of_endsToken he).1, ne_of_class he (b := 0x2E) rfl,
      ne_of_class he (b := 0x2D) rfl]
  | cons c s ih =>
    simp only [List.cons_append, digits]
    split
    · exact ih _
    split
    · exact ih _
    split
    · exact ih _
    · rfl

theorem exponentDigits_breaksAt (x : Nat) (s : Bytes) : BreaksAt e (exponentDigits x) s := by
  intro b
  induction s generalizing x with
  | nil => simp [exponentDigits, (not_digit_of_endsToken he).1]
  | cons c s ih =>
    simp only [List.cons_append, exponentDigits]
    split
    · exact ih _
    · rfl

/-- An `e` at the end is no exponent, and neither is one in front of a byte that ends tokens. -/
theorem exponent_breaksAt (s : Bytes) : BreaksAt e exponent s := by
  intro b
  match s with
  | [] =>
    cases b with
    | nil => rfl
    | cons d b =>
      simp [exponent, ne_of_class he (b := 0x65) rfl, ne_of_class he (b := 0x45) rfl]
  | [c] =>
    simp [exponent, (not_digit_of_endsToken he).1, ne_of_class he (b := 0x2B) rfl,
      ne_of_class he (b := 0x2D) rfl]
  | c :: d :: rest =>
    have hplain := exponentDigits_breaksAt he 0 rest b
    have hdigit := exponentDigits_breaksAt he 0 (d :: rest) b
    rw [List.cons_append] at hdigit
    simp only [List.cons_append, exponent]
    split
    · split
      · rw [hplain]
      split
      · rw [hplain]
      split
      · rw [hdigit]
      · rfl
    · rfl

theorem scanDigits_breaksAt (negative fraction : Bool) (s : Bytes) :
    BreaksAt e (scanDigits negative fraction) s := by
  intro b
  cases s with
  | nil => simp [scanDigits, (not_digit_of_endsToken he).1]
  | cons c s =>
    have hdigits := digits_breaksAt he ⟨0, 0, fraction⟩ (c :: s) b
    have hexponent := exponent_breaksAt he (digits ⟨0, 0, fraction⟩ (c :: s)).2 b
    rw [List.cons_append] at hdigits ⊢
    unfold scanDigits
    dsimp only
    split
    · rw [hdigits]
      dsimp only
      rw [hexponent]
      dsimp only
      split <;> rfl
    · rfl

theorem point_breaksAt (s : Bytes) : BreaksAt e point s := by
  intro b
  cases s with
  | nil => simp [point, ne_of_class he (b := 0x2E) rfl]
  | cons c s =>
    simp only [List.cons_append, point]
    split <;> rfl

theorem sign_breaksAt (s : Bytes) : BreaksAt e sign s := by
  intro b
  cases s with
  | nil => simp [sign, ne_of_class he (b := 0x2D) rfl, ne_of_class he (b := 0x2B) rfl]
  | cons c s =>
    simp only [List.cons_append, sign]
    split
    · cases s with
      | nil => simp [ne_of_class he (b := 0x2D) rfl]
      | cons d s =>
        simp only [List.cons_append]
        split <;> rfl
    split <;> rfl

end

theorem sign_breaks (s : Bytes) : Breaks sign s := sign_breaksAt rfl s

/-- Line ends in front of another byte are skipped whatever comes behind that. -/
theorem dropLineEnds_append {s : Bytes} (h : s.all isLineEnd = false) (w : Bytes) :
    (s ++ w).dropWhile isLineEnd = s.dropWhile isLineEnd ++ w := by
  induction s with
  | nil => cases h
  | cons c s ih =>
    by_cases hc : isLineEnd c = true
    · rw [List.all_cons, hc, Bool.true_and] at h
      simp only [List.cons_append, List.dropWhile_cons, hc, if_true]
      exact ih h
    · simp only [List.cons_append, List.dropWhile_cons, hc, if_false, Bool.false_eq_true]

/-- Line ends behind line ends are skipped with them. -/
theorem dropLineEnds_lineEnds {s : Bytes} (h : s.all isLineEnd = true) (w : Bytes) :
    (s ++ w).dropWhile isLineEnd = w.dropWhile isLineEnd := by
  induction s with
  | nil => rfl
  | cons c s ih =>
    rw [List.all_cons, Bool.and_eq_true] at h
    simp only [List.cons_append, List.dropWhile_cons, h.1, if_true]
    exact ih h.2

/-- A sign and line ends, and nothing else, are zero. -/
theorem scan_bareSign {s : Bytes} (h : (sign s).2.all isLineEnd = true) : scan s = (0, []) := by
  have hnone : (sign s).2.dropWhile isLineEnd = [] := by
    have hdrop := dropLineEnds_lineEnds h []
    rwa [List.append_nil] at hdrop
  rw [scan, hnone]
  rfl

/-- A number ends in front of a byte that ends tokens, unless that is a line end and nothing but line
ends stands behind the sign. -/
theorem scan_breaksAt {e : UInt8} (he : endsToken e = true) {s : Bytes}
    (h : isLineEnd e = false ∨ (sign s).2.all isLineEnd = false) : BreaksAt e scan s := by
  refine (sign_breaksAt he s).bind (g := fun negative rest =>
    scanDigits negative (point (rest.dropWhile isLineEnd)).1 (point (rest.dropWhile isLineEnd)).2)
    fun b => ?_
  have hdrop : ((sign s).2 ++ e :: b).dropWhile isLineEnd =
      (sign s).2.dropWhile isLineEnd ++ e :: b := by
    rcases h with hline | hmore
    · exact congrArg Prod.snd (BreaksAt.span hline (sign s).2 b)
    · exact dropLineEnds_append hmore _
  dsimp only
  rw [hdrop, point_breaksAt he]
  exact scanDigits_breaksAt he _ _ _ b

end Numeral

/-! ## Strings and names -/

namespace LiteralString

/-- Whether a string that is open at nesting `depth` is open still at the end of the input. A byte
behind a backslash neither opens nor closes. -/
def isUnclosed (depth : Nat) (escaped : Bool) : Bytes → Bool
  | [] => true
  | c :: rest =>
    if escaped then isUnclosed depth false rest
    else if c == 0x5C then isUnclosed depth true rest
    else if c == 0x28 then isUnclosed (depth + 1) false rest
    else if c == 0x29 then 1 < depth && isUnclosed (depth - 1) false rest
    else isUnclosed depth false rest

/-- Digits of an escape neither open nor close. -/
theorem isUnclosed_octal (depth room value : Nat) (s : Bytes) :
    isUnclosed depth false (octal room value s).2 = isUnclosed depth false s := by
  fun_induction octal room value s with
  | case1 room value d rest hoctal ih =>
    rw [ih]
    simp only [isUnclosed, ne_of_class hoctal (b := 0x5C) rfl, ne_of_class hoctal (b := 0x28) rfl,
      ne_of_class hoctal (b := 0x29) rfl, Bool.false_eq_true, if_false]
  | case2 => rfl
  | case3 => rfl

/-- What an escape takes in behind its first byte neither opens nor closes. -/
theorem isUnclosed_escape (depth : Nat) (s : Bytes) :
    isUnclosed depth false (escape s).2 = isUnclosed depth true s := by
  cases s with
  | nil => rfl
  | cons e rest =>
    simp only [escape, isUnclosed, if_true]
    split
    · exact isUnclosed_octal _ _ _ rest
    split
    · cases rest with
      | nil => rfl
      | cons f rest =>
        dsimp only
        split
        · rename_i hf
          rw [beq_iff_eq] at hf
          subst hf
          rfl
        · rfl
    split <;> rfl

theorem octal_append {room value : Nat} {s : Bytes} (h : (octal room value s).2 ≠ []) (w : Bytes) :
    octal room value (s ++ w) = ((octal room value s).1, (octal room value s).2 ++ w) := by
  fun_induction octal room value s with
  | case1 room value d rest hoctal ih =>
    rw [List.cons_append, octal, if_pos hoctal]
    exact ih h
  | case2 room value d rest hoctal =>
    rw [List.cons_append, octal, if_neg hoctal]
  | case3 room value bs hshort =>
    cases bs with
    | nil => exact absurd rfl h
    | cons d rest =>
      cases room with
      | zero => rfl
      | succ room => exact absurd rfl (hshort room d rest rfl)

/-- An escape in front of another byte is read whatever comes behind that. -/
theorem escape_append {s : Bytes} (h : (escape s).2 ≠ []) (w : Bytes) :
    escape (s ++ w) = ((escape s).1, (escape s).2 ++ w) := by
  cases s with
  | nil => exact absurd rfl h
  | cons e rest =>
    simp only [escape, List.cons_append] at h ⊢
    split
    · rename_i hoctal
      rw [if_pos hoctal] at h
      rw [octal_append h]
    rename_i hoctal
    rw [if_neg hoctal] at h
    split
    · rename_i hreturn
      rw [if_pos hreturn] at h
      cases rest with
      | nil => exact absurd rfl h
      | cons f rest =>
        simp only [List.cons_append]
        split <;> rfl
    split <;> rfl

/-- A string that is not closed runs to the end of the input. -/
theorem body_of_isUnclosed {depth : Nat} {s : Bytes} (h : isUnclosed depth false s = true)
    (done : Bytes) : (body depth done s).2 = [] := by
  fun_induction body depth done s with
  | case1 => rfl
  | case2 depth done c rest hopen ih =>
    rw [beq_iff_eq] at hopen
    subst hopen
    exact ih h
  | case3 depth done c rest hopen hclose hdepth =>
    rw [beq_iff_eq] at hclose
    subst hclose
    have hinner : ¬1 < depth := Nat.not_lt.mpr hdepth
    simp [isUnclosed, hinner] at h
  | case4 depth done c rest hopen hclose hdepth ih =>
    rw [beq_iff_eq] at hclose
    subst hclose
    have hinner : 1 < depth := Nat.lt_of_not_le hdepth
    exact ih (by simpa [isUnclosed, hinner] using h)
  | case5 depth done c rest hopen hclose hescape ih =>
    rw [beq_iff_eq] at hescape
    subst hescape
    exact ih (by rw [isUnclosed_escape]; exact h)
  | case6 depth done c rest hopen hclose hescape ih =>
    refine ih ?_
    simpa only [isUnclosed, hopen, hclose, hescape, Bool.false_eq_true, if_false] using h

/-- **A string that is closed is read whatever comes behind it.** -/
theorem body_append {depth : Nat} {s : Bytes} (h : isUnclosed depth false s = false)
    (done w : Bytes) :
    body depth done (s ++ w) = ((body depth done s).1, (body depth done s).2 ++ w) := by
  fun_induction body depth done s with
  | case1 => cases h
  | case2 depth done c rest hopen ih =>
    rw [List.cons_append, body, if_pos hopen]
    rw [beq_iff_eq] at hopen
    subst hopen
    exact ih h
  | case3 depth done c rest hopen hclose hdepth =>
    rw [List.cons_append, body, if_neg hopen, if_pos hclose, if_pos hdepth]
  | case4 depth done c rest hopen hclose hdepth ih =>
    rw [List.cons_append, body, if_neg hopen, if_pos hclose, if_neg hdepth]
    rw [beq_iff_eq] at hclose
    subst hclose
    refine ih ?_
    have hinner : 1 < depth := Nat.lt_of_not_le hdepth
    simpa [isUnclosed, hinner] using h
  | case5 depth done c rest hopen hclose hescape ih =>
    have hbackslash := hescape
    rw [beq_iff_eq] at hbackslash
    subst hbackslash
    have hrest : isUnclosed depth false (escape rest).2 = false := by
      rw [isUnclosed_escape]
      exact h
    have hmore : (escape rest).2 ≠ [] := by
      intro hnil
      rw [hnil] at hrest
      cases hrest
    rw [List.cons_append, body, if_neg hopen, if_neg hclose, if_pos hescape, escape_append hmore]
    exact ih hrest
  | case6 depth done c rest hopen hclose hescape ih =>
    rw [List.cons_append, body, if_neg hopen, if_neg hclose, if_neg hescape]
    refine ih ?_
    simpa only [isUnclosed, hopen, hclose, hescape, Bool.false_eq_true, if_false] using h

end LiteralString

namespace HexString

/-- A hex string that is not closed runs to the end of the input. -/
theorem body_of_not_contains {s : Bytes} (h : s.contains 0x3E = false) (high : Option UInt8)
    (done : Bytes) : (body high done s).2 = [] := by
  induction s generalizing high done with
  | nil => rfl
  | cons c rest ih =>
    rw [List.contains_cons, Bool.or_eq_false_iff, beq_eq_false_iff_ne] at h
    have hclose : ¬(c == 0x3E) = true := fun hc => h.1 (beq_iff_eq.mp hc).symm
    unfold body
    rw [if_neg hclose]
    cases hexValue? c <;> cases high <;> exact ih h.2 _ _

/-- **A hex string that is closed is read whatever comes behind it.** -/
theorem body_append {s : Bytes} (h : s.contains 0x3E = true) (high : Option UInt8)
    (done w : Bytes) :
    body high done (s ++ w) = ((body high done s).1, (body high done s).2 ++ w) := by
  induction s generalizing high done with
  | nil => cases h
  | cons c rest ih =>
    rw [List.cons_append]
    unfold body
    by_cases hclose : (c == 0x3E) = true
    · rw [if_pos hclose, if_pos hclose]
    have hrest : rest.contains 0x3E = true := by
      rw [List.contains_cons, Bool.or_eq_true] at h
      exact h.resolve_left fun hc => hclose (by rw [beq_iff_eq] at hc ⊢; exact hc.symm)
    rw [if_neg hclose, if_neg hclose]
    cases hexValue? c <;> cases high <;> exact ih hrest _ _

end HexString

namespace Name

theorem spelled?_append {s rest : Bytes} {c : UInt8} (h : spelled? s = some (c, rest))
    (w : Bytes) : spelled? (s ++ w) = some (c, rest ++ w) := by
  match s with
  | [] => cases h
  | [a] => cases h
  | a :: b :: s =>
    simp only [spelled?, List.cons_append] at h ⊢
    split at h
    · cases h
      rfl
    · cases h

/-- A byte that ends tokens is no hex digit. -/
theorem spelled?_of_endsToken {e : UInt8} (he : endsToken e = true) {s : Bytes}
    (h : spelled? s = none) (b : Bytes) : spelled? (s ++ e :: b) = none := by
  match s with
  | [] =>
    cases b with
    | nil => rfl
    | cons c b => simp [spelled?, (not_digit_of_endsToken he).2]
  | [a] => simp [spelled?, (not_digit_of_endsToken he).2]
  | a :: c :: s =>
    simp only [spelled?, List.cons_append] at h ⊢
    split at h
    · cases h
    · rfl

theorem body_breaksAt {e : UInt8} (he : endsToken e = true) (done s : Bytes) :
    BreaksAt e (body done) s := by
  intro b
  fun_induction body done s with
  | case1 done => rw [List.nil_append, body, if_pos he]
  | case2 done c rest hends => rw [List.cons_append, body, if_pos hends]
  | case3 done c rest hends hsign x rest' hspelled ih =>
    rw [List.cons_append, body, if_neg hends, if_pos hsign, spelled?_append hspelled]
    exact ih
  | case4 done c rest hends hsign hspelled ih =>
    rw [List.cons_append, body, if_neg hends, if_pos hsign, spelled?_of_endsToken he hspelled]
    exact ih
  | case5 done c rest hends hsign ih =>
    rw [List.cons_append, body, if_neg hends, if_neg hsign]
    exact ih

end Name

/-! ## Tokens -/

namespace Token

/-- The token that the text starts with is a literal string, and it never closes. -/
def opensString : Bytes → Bool
  | [] => false
  | c :: rest => c == 0x28 && LiteralString.isUnclosed 1 false rest

/-- The token that the text starts with is a hex string, and it never closes. -/
def opensHexString : Bytes → Bool
  | [] => false
  | c :: rest => c == 0x3C && rest.head? != some 0x3C && !rest.contains 0x3E

/-- The text is a sign with nothing behind it but line ends. -/
def isBareSign : Bytes → Bool
  | [] => false
  | c :: rest => (c == 0x2B || c == 0x2D) && (Numeral.sign (c :: rest)).2.all isLineEnd

/-- A word that reaches the end is no longer when a byte that ends tokens follows. -/
theorem scanWord_breaksAt {e : UInt8} (he : endsToken e = true) (s : Bytes) :
    BreaksAt e scanWord s := by
  intro b
  have hends : (!endsToken e) = false := by rw [he, Bool.not_true]
  obtain ⟨hword, hrest⟩ := Prod.mk.inj (BreaksAt.span (p := fun b => !endsToken b) hends s b)
  unfold scanWord
  dsimp only
  rw [hword, hrest]
  split <;> rfl

/-- Behind the sign of a numeral that is more than a sign there is more than line ends. -/
theorem not_all_lineEnd {c : UInt8} {rest : Bytes} (hnumeral : opensNumeral c = true)
    (hsign : isBareSign (c :: rest) = false) :
    (Numeral.sign (c :: rest)).2.all isLineEnd = false := by
  by_cases hc : (c == 0x2B || c == 0x2D) = true
  · rw [isBareSign, hc] at hsign
    exact hsign
  · rw [Bool.or_eq_true, not_or] at hc
    have hline : isLineEnd c = false := by
      rw [isLineEnd, ne_of_class hnumeral rfl, ne_of_class hnumeral rfl]
      rfl
    simp only [Numeral.sign, hc.1, hc.2, if_false, Bool.false_eq_true, List.all_cons, hline,
      Bool.false_and]

/-- **A byte that ends tokens ends every token but four**: the strings that are still open, the sign
that line ends may follow, and the angle bracket that is half of an end mark. -/
theorem scanFrom_breaksAt {e c : UInt8} {rest : Bytes} (he : endsToken e = true)
    (hstring : opensString (c :: rest) = false) (hhex : opensHexString (c :: rest) = false)
    (hsign : isLineEnd e = false ∨ isBareSign (c :: rest) = false)
    (hangle : e ≠ 0x3E ∨ c :: rest ≠ [0x3E]) : BreaksAt e (scanFrom c) rest := by
  intro b
  unfold scanFrom
  split
  · rename_i hnumeral
    have hscan := Numeral.scan_breaksAt he (hsign.imp_right (not_all_lineEnd hnumeral)) b
    rw [List.cons_append] at hscan
    rw [hscan]
  split
  · rename_i hparen
    rw [opensString, hparen, Bool.true_and] at hstring
    rw [LiteralString.scan, LiteralString.body_append hstring]
    rfl
  split
  · rw [Name.scan, Name.body_breaksAt he]
    rfl
  split
  · rfl
  split
  · rfl
  split
  · rename_i hopen
    cases rest with
    | nil =>
      rw [beq_iff_eq] at hopen
      subst hopen
      cases hhex
    | cons d rest =>
      rw [List.cons_append, List.head?_cons, List.head?_cons]
      split
      · rfl
      · rename_i hd
        rw [opensHexString, hopen, List.head?_cons, bne, Bool.eq_false_iff.mpr hd, Bool.true_and,
          Bool.not_false, Bool.true_and, Bool.not_eq_false'] at hhex
        have hbody := HexString.body_append hhex none [] (e :: b)
        rw [List.cons_append] at hbody
        rw [HexString.scan, hbody]
        rfl
  split
  · rename_i hclose
    cases rest with
    | nil =>
      rw [beq_iff_eq] at hclose
      have he' : e ≠ 0x3E := hangle.resolve_right fun hne => hne (by rw [hclose])
      simp [he']
    | cons d rest =>
      rw [List.cons_append, List.head?_cons, List.head?_cons]
      split <;> rfl
  split
  · rfl
  split
  · rfl
  · exact scanWord_breaksAt he (c :: rest) b

/-- **A line feed ends every token but three**: the strings that are still open and the sign that
has no digit yet. -/
theorem scanFrom_breaks {c : UInt8} {rest : Bytes} (hstring : opensString (c :: rest) = false)
    (hhex : opensHexString (c :: rest) = false) (hsign : isBareSign (c :: rest) = false) :
    Breaks (scanFrom c) rest :=
  scanFrom_breaksAt rfl hstring hhex (.inr hsign) (.inl (by decide))

/-- The tokens that a line feed does not end. -/
def runsOn (s : Bytes) : Bool := opensString s || opensHexString s || isBareSign s

/-- A string of either kind or a number. -/
def isLiteral : Token → Bool
  | .str _ | .hexStr _ | .num _ => true
  | _ => false

theorem opensNumeral_of_isBareSign {c : UInt8} {rest : Bytes}
    (h : isBareSign (c :: rest) = true) : opensNumeral c = true := by
  rw [isBareSign, Bool.and_eq_true, Bool.or_eq_true] at h
  rcases h.1 with hc | hc <;> simp only [opensNumeral, hc, Bool.or_true, Bool.true_or]

/-- They are literals that run to the end of the input. -/
theorem scanFrom_of_runsOn {c : UInt8} {rest : Bytes} (h : runsOn (c :: rest) = true) :
    ∃ t, scanFrom c rest = (.ok t, []) ∧ t.isLiteral = true := by
  rw [runsOn, Bool.or_eq_true, Bool.or_eq_true] at h
  rcases h with (hstring | hhex) | hsign
  · rw [opensString, Bool.and_eq_true, beq_iff_eq] at hstring
    obtain ⟨rfl, hopen⟩ := hstring
    have hrest := LiteralString.body_of_isUnclosed hopen []
    refine ⟨.str (LiteralString.scan rest).1, ?_, rfl⟩
    change (_, (LiteralString.scan rest).2) = _
    rw [LiteralString.scan, hrest]
  · rw [opensHexString, Bool.and_eq_true, Bool.and_eq_true, beq_iff_eq, bne_iff_ne,
      Bool.not_eq_true'] at hhex
    obtain ⟨⟨rfl, hsingle⟩, hopen⟩ := hhex
    have hrest := HexString.body_of_not_contains hopen none []
    refine ⟨.hexStr (HexString.scan rest).1, ?_, rfl⟩
    change (if (rest.head? == some 0x3C) = true then _ else (_, (HexString.scan rest).2)) = _
    rw [if_neg (by rwa [beq_iff_eq]), HexString.scan, hrest]
  · have hnumeral := opensNumeral_of_isBareSign hsign
    rw [isBareSign, Bool.and_eq_true] at hsign
    refine ⟨.num 0, ?_, rfl⟩
    rw [scanFrom, if_pos hnumeral, Numeral.scan_bareSign hsign.2]

/-- A line feed ends a comment and is blank, so blanks that reach the end go on behind it. -/
theorem skipBlanks_lineFeed (inComment : Bool) (s b : Bytes) :
    skipBlanks inComment (s ++ 0x0A :: b) =
      if skipBlanks inComment s = [] then skipBlanks false b
      else skipBlanks inComment s ++ 0x0A :: b := by
  fun_induction skipBlanks inComment s with
  | case1 inComment => cases inComment <;> rfl
  | case2 c rest ih => exact ih
  | case3 inComment c rest hcomment hpercent ih =>
    rw [List.cons_append, skipBlanks, if_neg hcomment, if_pos hpercent]
    exact ih
  | case4 inComment c rest hcomment hpercent hblank ih =>
    rw [List.cons_append, skipBlanks, if_neg hcomment, if_neg hpercent, if_pos hblank]
    exact ih
  | case5 inComment c rest hcomment hpercent hblank =>
    rw [List.cons_append, skipBlanks, if_neg hcomment, if_neg hpercent, if_neg hblank,
      if_neg (List.cons_ne_nil _ _)]

theorem skipBlanks_lineFeed_cons {s rest : Bytes} {c : UInt8} (h : skipBlanks false s = c :: rest)
    (b : Bytes) : skipBlanks false (s ++ 0x0A :: b) = c :: (rest ++ 0x0A :: b) := by
  rw [skipBlanks_lineFeed, h, if_neg (List.cons_ne_nil _ _), List.cons_append]

theorem skipBlanks_lineFeed_nil {s : Bytes} (h : skipBlanks false s = []) (b : Bytes) :
    skipBlanks false (s ++ 0x0A :: b) = skipBlanks false b := by
  rw [skipBlanks_lineFeed, if_pos h]

/-- What opens a numeral is no blank. -/
theorem skipBlanks_numeral {c : UInt8} (h : opensNumeral c = true) (rest : Bytes) :
    skipBlanks false (c :: rest) = c :: rest := by
  have hblank : isBlank c = false := by
    simp only [isBlank, ne_of_class h (b := 0x00) rfl, ne_of_class h (b := 0x09) rfl,
      ne_of_class h (b := 0x0A) rfl, ne_of_class h (b := 0x0C) rfl,
      ne_of_class h (b := 0x0D) rfl, ne_of_class h (b := 0x20) rfl, Bool.or_self]
  simp only [skipBlanks, hblank, ne_of_class h (b := 0x25) rfl, Bool.false_eq_true, if_false]

theorem scan_nil {s : Bytes} (h : skipBlanks false s = []) : scan s = (.ok .eof, []) := by
  unfold scan
  rw [h]

theorem scan_cons {s rest : Bytes} {c : UInt8} (h : skipBlanks false s = c :: rest) :
    scan s = scanFrom c rest := by
  unfold scan
  rw [h]

/-- **A line feed ends the first token of the input**, unless that is a literal that runs to the end. -/
theorem scan_lineFeed {s : Bytes} (h : (scan s).1 ≠ .ok .eof) :
    Breaks scan s ∨ ∃ t, scan s = (.ok t, []) ∧ t.isLiteral = true := by
  cases hs : skipBlanks false s with
  | nil => exact absurd (congrArg Prod.fst (scan_nil hs)) h
  | cons c rest =>
    cases hruns : runsOn (c :: rest) with
    | true => exact .inr (scan_cons hs ▸ scanFrom_of_runsOn hruns)
    | false =>
      rw [runsOn, Bool.or_eq_false_iff, Bool.or_eq_false_iff] at hruns
      refine .inl fun b => ?_
      rw [scan_cons (skipBlanks_lineFeed_cons hs b), scan_cons hs]
      exact scanFrom_breaks hruns.1.1 hruns.1.2 hruns.2 b

end Token

/-! ## Samples -/

namespace InlineData

/-- Whether an `EI` ends the samples, after the bytes `done` (latest first). -/
def isEnded (done : Bytes) : Bytes → Bool
  | [] => false
  | b :: rest =>
    (endsInMark (b :: done) && rest.head?.all endsToken) || isEnded (b :: done) rest

/-- Whether the samples after an `ID` end before the input does. -/
def isComplete : Bytes → Bool
  | [] => false
  | b :: rest => if isBlank b then isEnded [] rest else isEnded [] (b :: rest)

/-- A line feed sets a mark off as the end of the input does. -/
theorem endsToken_lineFeed (rest b : Bytes) :
    (rest ++ 0x0A :: b).head?.all endsToken = rest.head?.all endsToken := by
  cases rest <;> rfl

theorem body_breaks {done s : Bytes} (h : isEnded done s = true) : Breaks (body done) s := by
  intro b
  fun_induction body done s with
  | case1 => cases h
  | case2 done c rest hend => rw [List.cons_append, body, endsToken_lineFeed, if_pos hend]
  | case3 done c rest hend ih =>
    rw [isEnded, Bool.eq_false_iff.mpr hend, Bool.false_or] at h
    rw [List.cons_append, body, endsToken_lineFeed, if_neg hend]
    exact ih h

/-- Samples that end do so whatever comes behind a line feed. -/
theorem isEnded_lineFeed {done s : Bytes} (h : isEnded done s = true) (b : Bytes) :
    isEnded done (s ++ 0x0A :: b) = true := by
  induction s generalizing done with
  | nil => cases h
  | cons c rest ih =>
    rw [isEnded, Bool.or_eq_true] at h
    rw [List.cons_append, isEnded, endsToken_lineFeed, Bool.or_eq_true]
    exact h.imp_right ih

/-- Samples without their `EI` run to the end of the input. -/
theorem body_of_not_isEnded {done s : Bytes} (h : isEnded done s = false) : (body done s).2 = [] := by
  fun_induction body done s with
  | case1 => rfl
  | case2 done c rest hend =>
    rw [isEnded, hend] at h
    cases h
  | case3 done c rest hend ih =>
    rw [isEnded, Bool.or_eq_false_iff] at h
    exact ih h.2

/-- What follows an `ID`, less one blank: the samples and what is behind them. -/
def behindBlank (s : Bytes) : Bytes := if s.head?.any isBlank then s.tail else s

theorem scan_eq (s : Bytes) : scan s = body [] (behindBlank s) := by
  cases s with
  | nil => rfl
  | cons c rest =>
    unfold scan behindBlank
    exact (apply_ite (body []) _ _ _).symm

theorem isComplete_eq (s : Bytes) : isComplete s = isEnded [] (behindBlank s) := by
  cases s with
  | nil => rfl
  | cons c rest =>
    unfold isComplete behindBlank
    exact (apply_ite (isEnded []) _ _ _).symm

theorem behindBlank_lineFeed {s : Bytes} (h : isComplete s = true) (b : Bytes) :
    behindBlank (s ++ 0x0A :: b) = behindBlank s ++ 0x0A :: b := by
  cases s with
  | nil => cases h
  | cons c rest =>
    rw [List.cons_append, behindBlank, behindBlank, List.head?_cons, List.head?_cons]
    split <;> rfl

theorem isComplete_lineFeed {s : Bytes} (h : isComplete s = true) (b : Bytes) :
    isComplete (s ++ 0x0A :: b) = true := by
  rw [isComplete_eq, behindBlank_lineFeed h]
  rw [isComplete_eq] at h
  exact isEnded_lineFeed h b

theorem scan_of_not_isComplete {s : Bytes} (h : isComplete s = false) : (scan s).2 = [] := by
  rw [isComplete_eq] at h
  rw [scan_eq]
  exact body_of_not_isEnded h

/-- **Samples that have their `EI` are read whatever comes behind the line feed.** -/
theorem scan_breaks {s : Bytes} (h : isComplete s = true) : Breaks scan s := by
  intro b
  rw [scan_eq, behindBlank_lineFeed h, scan_eq]
  rw [isComplete_eq] at h
  exact body_breaks h b

end InlineData

end PdfScene
