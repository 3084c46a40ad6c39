import PdfScene.Lexical.Raw
import PdfScene.Proofs.Lexical.Digits

/-!
# What a scan does not reach does not matter

A scanner reads from the front and returns what follows. Put two different tails behind one piece of
input: if neither scan goes on into its tail, both find the same and leave the same of the piece. That
is `Local`. It takes both scans to say so, as one byte of the tail may be looked at to see that
nothing more is to be read, such as the one behind an `e` that could begin an exponent.

Scanners that go on byte by byte are local because every step is (`Local.loop`), and all others are
made of such ones. The last of them is `Lookahead.nextToken`.
-/

set_option autoImplicit false

namespace PdfScene

open Byte

/-- A scan that does not depend on a tail that it does not reach. -/
structure Local {α : Type} (f : Bytes → α × Bytes) : Prop where
  shrinks : ∀ bs, (f bs).2.length ≤ bs.length
  agrees : ∀ s w w', w.length ≤ (f (s ++ w)).2.length → w'.length ≤ (f (s ++ w')).2.length →
    ∃ a t, f (s ++ w) = (a, t ++ w) ∧ f (s ++ w') = (a, t ++ w')

namespace Local

variable {α β ι : Type}

/-! ## Building local scans -/

/-- Nothing need be read. -/
theorem pure (a : α) : Local fun bs : Bytes => (a, bs) where
  shrinks _ := Nat.le_refl _
  agrees s _ _ _ _ := ⟨a, s, rfl, rfl⟩

theorem map {f : Bytes → α × Bytes} (hf : Local f) (g : α → β) :
    Local fun bs => (g (f bs).1, (f bs).2) where
  shrinks := hf.shrinks
  agrees s w w' h h' := by
    obtain ⟨a, t, heq, heq'⟩ := hf.agrees s w w' h h'
    exact ⟨g a, t, by rw [heq], by rw [heq']⟩

/-- One scan after the other. -/
theorem bind {f : Bytes → α × Bytes} {g : α → Bytes → β × Bytes} (hf : Local f)
    (hg : ∀ a, Local (g a)) : Local fun bs => g (f bs).1 (f bs).2 where
  shrinks bs := Nat.le_trans ((hg _).shrinks _) (hf.shrinks bs)
  agrees s w w' h h' := by
    have hfirst : w.length ≤ (f (s ++ w)).2.length := Nat.le_trans h ((hg _).shrinks _)
    have hfirst' : w'.length ≤ (f (s ++ w')).2.length := Nat.le_trans h' ((hg _).shrinks _)
    obtain ⟨a, t, heq, heq'⟩ := hf.agrees s w w' hfirst hfirst'
    rw [heq] at h
    rw [heq'] at h'
    obtain ⟨b, u, hnext, hnext'⟩ := (hg a).agrees t w w' h h'
    exact ⟨b, u, by rw [heq, hnext], by rw [heq', hnext']⟩

/-- A scan that is sure to read a first byte `c` is local in what follows that. -/
theorem after {f : Bytes → α × Bytes} (hf : Local f) {c : UInt8}
    (hread : ∀ rest, (f (c :: rest)).2.length ≤ rest.length) :
    Local fun rest => f (c :: rest) where
  shrinks := hread
  agrees s w w' h h' := hf.agrees (c :: s) w w' h h'

/-- **A scan that goes on byte by byte is local.** In each state it leaves the byte in front of it,
with the result `idle` of that state, or it reads the byte and ends, or it reads the byte and comes
to another state by a local scan. -/
theorem loop {f : ι → Bytes → α × Bytes} (idle : ι → α) (hnil : ∀ i, f i [] = (idle i, []))
    (hcons : ∀ i c, (∀ rest, f i (c :: rest) = (idle i, c :: rest)) ∨
      (∃ a, ∀ rest, f i (c :: rest) = (a, rest)) ∨
      ∃ g : Bytes → ι × Bytes, Local g ∧ ∀ rest, f i (c :: rest) = f (g rest).1 (g rest).2) :
    ∀ i, Local (f i) := by
  have hshrinks : ∀ n i bs, bs.length = n → (f i bs).2.length ≤ n := by
    intro n
    induction n using Nat.strongRecOn with
    | ind n ih =>
      intro i bs hn
      cases bs with
      | nil => simp [hnil]
      | cons c rest =>
        rw [List.length_cons] at hn
        rcases hcons i c with hleave | ⟨a, hend⟩ | ⟨g, hg, hgo⟩
        · rw [hleave, List.length_cons]
          omega
        · rw [hend]
          dsimp only
          omega
        · have hrest := hg.shrinks rest
          have := ih _ (by omega) (g rest).1 (g rest).2 rfl
          rw [hgo]
          omega
  have hidle : ∀ i bs, bs.length ≤ (f i bs).2.length → f i bs = (idle i, bs) := by
    intro i bs h
    cases bs with
    | nil => exact hnil i
    | cons c rest =>
      rw [List.length_cons] at h
      rcases hcons i c with hleave | ⟨a, hend⟩ | ⟨g, hg, hgo⟩
      · exact hleave rest
      · rw [hend] at h
        dsimp only at h
        omega
      · have hrest := hg.shrinks rest
        have := hshrinks _ (g rest).1 (g rest).2 rfl
        rw [hgo] at h
        omega
  have hagrees : ∀ n i s w w', s.length = n → w.length ≤ (f i (s ++ w)).2.length →
      w'.length ≤ (f i (s ++ w')).2.length →
      ∃ a t, f i (s ++ w) = (a, t ++ w) ∧ f i (s ++ w') = (a, t ++ w') := by
    intro n
    induction n using Nat.strongRecOn with
    | ind n ih =>
      intro i s w w' hn h h'
      cases s with
      | nil => exact ⟨idle i, [], hidle i w h, hidle i w' h'⟩
      | cons c s =>
        rw [List.length_cons] at hn
        simp only [List.cons_append] at h h' ⊢
        rcases hcons i c with hleave | ⟨a, hend⟩ | ⟨g, hg, hgo⟩
        · exact ⟨idle i, c :: s, hleave _, hleave _⟩
        · exact ⟨a, s, hend _, hend _⟩
        · rw [hgo] at h h'
          have hfirst := Nat.le_trans h (hshrinks _ _ _ rfl)
          have hfirst' := Nat.le_trans h' (hshrinks _ _ _ rfl)
          obtain ⟨j, t, heq, heq'⟩ := hg.agrees s w w' hfirst hfirst'
          have hlength := hg.shrinks (s ++ w)
          rw [heq] at h hlength
          rw [heq'] at h'
          simp only [List.length_append] at hlength
          obtain ⟨a, u, hnext, hnext'⟩ := ih t.length (by omega) j t w w' rfl h h'
          exact ⟨a, u, by rw [hgo, heq, hnext], by rw [hgo, heq', hnext']⟩
  exact fun i => ⟨fun bs => hshrinks _ i bs rfl, fun s w w' => hagrees _ i s w w' rfl⟩

/-- A scan that leaves the byte in front of it or reads it and goes on by a local scan. -/
theorem first {f : Bytes → α × Bytes} (idle : α) (hnil : f [] = (idle, []))
    (hcons : ∀ c, (∀ rest, f (c :: rest) = (idle, c :: rest)) ∨
      ∃ g : Bytes → α × Bytes, Local g ∧ ∀ rest, f (c :: rest) = g rest) : Local f where
  shrinks bs := by
    cases bs with
    | nil => simp [hnil]
    | cons c rest =>
      rcases hcons c with hleave | ⟨g, hg, hgo⟩
      · rw [hleave]
      · rw [hgo]
        exact Nat.le_succ_of_le (hg.shrinks rest)
  agrees s w w' h h' := by
    have hidle : ∀ bs : Bytes, bs.length ≤ (f bs).2.length → f bs = (idle, bs) := by
      intro bs hbs
      cases bs with
      | nil => exact hnil
      | cons c rest =>
        rcases hcons c with hleave | ⟨g, hg, hgo⟩
        · exact hleave rest
        · have hrest := hg.shrinks rest
          rw [hgo, List.length_cons] at hbs
          omega
    cases s with
    | nil => exact ⟨idle, [], hidle w h, hidle w' h'⟩
    | cons c s =>
      simp only [List.cons_append] at h h' ⊢
      rcases hcons c with hleave | ⟨g, hg, hgo⟩
      · exact ⟨idle, c :: s, hleave _, hleave _⟩
      · simp only [hgo] at h h' ⊢
        exact hg.agrees s w w' h h'

/-- A scan that looks at two bytes before it reads either of them. -/
theorem two {f : Bytes → α × Bytes} (idle : α) (hnil : f [] = (idle, []))
    (hone : ∀ b, f [b] = (idle, [b]))
    (hcons : ∀ b c, (∀ rest, f (b :: c :: rest) = (idle, b :: c :: rest)) ∨
      ∃ g : Bytes → α × Bytes, Local g ∧ ∀ rest, f (b :: c :: rest) = g rest) : Local f := by
  have hshort : ∀ bs : Bytes, bs.length < (f bs).2.length + 2 → f bs = (idle, bs) := by
    intro bs hbs
    match bs with
    | [] => exact hnil
    | [b] => exact hone b
    | b :: c :: rest =>
      rcases hcons b c with hleave | ⟨g, hg, hgo⟩
      · exact hleave rest
      · have hrest := hg.shrinks rest
        rw [hgo, List.length_cons, List.length_cons] at hbs
        omega
  refine ⟨fun bs => ?_, fun s w w' h h' => ?_⟩
  · by_cases hbs : bs.length < (f bs).2.length + 2
    · rw [hshort bs hbs]
    · omega
  · match s with
    | [] =>
      rw [List.nil_append] at h h'
      exact ⟨idle, [], hshort w (by omega), hshort w' (by omega)⟩
    | [b] =>
      have hw : ([b] ++ w).length < (f ([b] ++ w)).2.length + 2 := by
        simp only [List.length_append, List.length_singleton]
        omega
      have hw' : ([b] ++ w').length < (f ([b] ++ w')).2.length + 2 := by
        simp only [List.length_append, List.length_singleton]
        omega
      exact ⟨idle, [b], hshort _ hw, hshort _ hw'⟩
    | b :: c :: s =>
      simp only [List.cons_append] at h h' ⊢
      rcases hcons b c with hleave | ⟨g, hg, hgo⟩
      · exact ⟨idle, b :: c :: s, hleave _, hleave _⟩
      · simp only [hgo] at h h' ⊢
        exact hg.agrees s w w' h h'

/-- Bytes of a class are read, and the first other byte is left. -/
theorem span (p : UInt8 → Bool) : Local fun bs => (bs.takeWhile p, bs.dropWhile p) := by
  have hloop : ∀ done : Bytes, Local fun bs => (done ++ bs.takeWhile p, bs.dropWhile p) := by
    refine loop (f := fun done bs => (done ++ bs.takeWhile p, bs.dropWhile p)) id
      (fun done => by simp) fun done c => ?_
    by_cases hc : p c = true
    · exact .inr (.inr ⟨fun rest => (done ++ [c], rest), .pure _, fun rest => by simp [hc]⟩)
    · exact .inl fun rest => by simp [hc]
  exact hloop []

theorem dropWhile (p : UInt8 → Bool) : Local fun bs => ((), bs.dropWhile p) :=
  (span p).map fun _ => ()

end Local

/-! ## Numerals -/

namespace Numeral

theorem digits_local (n : Numeral) : Local (digits n) := by
  refine Local.loop (f := digits) id (fun _ => rfl) (fun n c => ?_) n
  by_cases hdigit : isDigit c = true
  · refine .inr (.inr ⟨fun rest => ({ n with
      mantissa := n.mantissa * 10 + (digitValue c).toFloat
      places := if n.fraction then n.places + 1 else n.places }, rest), .pure _, fun rest => ?_⟩)
    rw [digits, if_pos hdigit]
  by_cases hpoint : (c == 0x2E && !n.fraction) = true
  · refine .inr (.inr ⟨fun rest => ({ n with fraction := true }, rest), .pure _, fun rest => ?_⟩)
    rw [digits, if_neg hdigit, if_pos hpoint]
  by_cases hminus : (c == 0x2D) = true
  · refine .inr (.inr ⟨fun rest => (n, rest), .pure _, fun rest => ?_⟩)
    rw [digits, if_neg hdigit, if_neg hpoint, if_pos hminus]
  · refine .inl fun rest => ?_
    rw [digits, if_neg hdigit, if_neg hpoint, if_neg hminus]
    rfl

theorem exponentDigits_local (e : Nat) : Local (exponentDigits e) := by
  refine Local.loop (f := exponentDigits) id (fun _ => rfl) (fun e c => ?_) e
  by_cases hdigit : isDigit c = true
  · refine .inr (.inr ⟨fun rest => (min exponentLimit (min exponentLimit (e * 10) + digitValue c),
      rest), .pure _, fun rest => ?_⟩)
    rw [exponentDigits, if_pos hdigit]
  · refine .inl fun rest => ?_
    rw [exponentDigits, if_neg hdigit]
    rfl

/-- A digit is sure to be read. -/
theorem exponentDigits_length_lt {c : UInt8} (h : isDigit c = true) (rest : Bytes) :
    (exponentDigits 0 (c :: rest)).2.length ≤ rest.length := by
  rw [exponentDigits, if_pos h]
  exact exponentDigits_length_le _ rest

theorem exponent_local : Local exponent := by
  refine Local.two 0 rfl (fun _ => rfl) fun e c => ?_
  by_cases he : (e == 0x65 || e == 0x45) = true
  · by_cases hplus : (c == 0x2B) = true
    · refine .inr ⟨_, (exponentDigits_local 0).map fun n => (n : Int), fun rest => ?_⟩
      rw [exponent, if_pos he, if_pos hplus]
    by_cases hminus : (c == 0x2D) = true
    · refine .inr ⟨_, (exponentDigits_local 0).map fun n => -(n : Int), fun rest => ?_⟩
      rw [exponent, if_pos he, if_neg hplus, if_pos hminus]
    by_cases hdigit : isDigit c = true
    · refine .inr ⟨_, ((exponentDigits_local 0).after (exponentDigits_length_lt hdigit)).map
        fun n => (n : Int), fun rest => ?_⟩
      rw [exponent, if_pos he, if_neg hplus, if_neg hminus, if_pos hdigit]
    · refine .inl fun rest => ?_
      rw [exponent, if_pos he, if_neg hplus, if_neg hminus, if_neg hdigit]
  · refine .inl fun rest => ?_
    rw [exponent, if_neg he]

/-- A second minus goes with the first. -/
theorem secondSign_local : Local fun rest : Bytes => (true, match rest with
    | d :: rest' => if d == 0x2D then rest' else rest
    | [] => []) := by
  refine Local.first true rfl fun d => ?_
  by_cases hd : (d == 0x2D) = true
  · exact .inr ⟨_, .pure true, fun rest => by simp [hd]⟩
  · exact .inl fun rest => by simp [hd]

theorem sign_local : Local sign := by
  refine Local.first false rfl fun c => ?_
  by_cases hminus : (c == 0x2D) = true
  · exact .inr ⟨_, secondSign_local, fun _ => if_pos hminus⟩
  by_cases hplus : (c == 0x2B) = true
  · exact .inr ⟨_, .pure false, fun _ => (if_neg hminus).trans (if_pos hplus)⟩
  · exact .inl fun _ => (if_neg hminus).trans (if_neg hplus)

theorem point_local : Local point := by
  refine Local.first false rfl fun c => ?_
  by_cases hpoint : (c == 0x2E) = true
  · refine .inr ⟨_, .pure true, fun rest => ?_⟩
    rw [point, if_pos hpoint]
  · refine .inl fun rest => ?_
    rw [point, if_neg hpoint]

theorem scanDigits_local (negative fraction : Bool) : Local (scanDigits negative fraction) := by
  have hread := (digits_local ⟨0, 0, fraction⟩).bind fun n => exponent_local.map fun e =>
    (n.value? e).elim 0 fun magnitude => if negative then -magnitude else magnitude
  refine Local.first 0 rfl fun c => ?_
  by_cases hdigit : isDigit c = true
  · have hlt : ∀ rest, (exponent (digits ⟨0, 0, fraction⟩ (c :: rest)).2).2.length ≤ rest.length := by
      intro rest
      have h := scanDigits_length_lt negative fraction c rest hdigit
      simp only [scanDigits, hdigit, if_true] at h
      split at h <;> exact Nat.le_of_lt_succ h
    refine .inr ⟨_, hread.after hlt, fun rest => ?_⟩
    rw [scanDigits, if_pos hdigit]
    dsimp only
    split <;> simp_all
  · refine .inl fun rest => ?_
    rw [scanDigits, if_neg hdigit]

/-- **A number does not depend on what its scan does not reach.** -/
theorem scan_local : Local scan :=
  sign_local.bind fun negative => (Local.dropWhile isLineEnd).bind fun _ =>
    point_local.bind fun fraction => scanDigits_local negative fraction

end Numeral

/-! ## Strings and names -/

namespace LiteralString

theorem octal_local (room value : Nat) : Local (octal room value) := by
  refine Local.loop (f := fun (i : Nat × Nat) => octal i.1 i.2) Prod.snd
    (fun (room, _) => by cases room <;> rfl) (fun (room, value) d => ?_) (room, value)
  cases room with
  | zero => exact .inl fun _ => rfl
  | succ room =>
    by_cases hoctal : isOctal d = true
    · refine .inr (.inr ⟨fun rest => ((room, value * 8 + digitValue d), rest), .pure _,
        fun rest => ?_⟩)
      simp only [octal, hoctal, if_true]
    · refine .inl fun rest => ?_
      simp only [octal, hoctal, if_false, Bool.false_eq_true]

/-- A line feed goes with the carriage return before it. -/
theorem lineFeed_local : Local fun rest : Bytes => match rest with
    | f :: rest' => (([] : Bytes), if f == 0x0A then rest' else rest)
    | [] => ([], []) := by
  refine Local.first [] rfl fun f => ?_
  by_cases hf : (f == 0x0A) = true
  · exact .inr ⟨_, .pure [], fun rest => by simp [hf]⟩
  · exact .inl fun rest => by simp [hf]

theorem escape_local : Local escape := by
  refine Local.first [] rfl fun e => ?_
  by_cases hoctal : isOctal e = true
  · exact .inr ⟨_, (octal_local 2 (digitValue e)).map fun value => [UInt8.ofNat value],
      fun _ => if_pos hoctal⟩
  by_cases hreturn : (e == 0x0D) = true
  · exact .inr ⟨_, lineFeed_local, fun _ => (if_neg hoctal).trans (if_pos hreturn)⟩
  by_cases hfeed : (e == 0x0A) = true
  · exact .inr ⟨_, .pure [], fun _ =>
      (if_neg hoctal).trans ((if_neg hreturn).trans (if_pos hfeed))⟩
  · exact .inr ⟨_, .pure [escaped e], fun _ =>
      (if_neg hoctal).trans ((if_neg hreturn).trans (if_neg hfeed))⟩

theorem body_local (depth : Nat) (done : Bytes) : Local (body depth done) := by
  refine Local.loop (f := fun (i : Nat × Bytes) => body i.1 i.2) (fun i => i.2.reverse)
    (fun _ => by simp [body]) (fun (depth, done) c => ?_) (depth, done)
  by_cases hopen : (c == 0x28) = true
  · refine .inr (.inr ⟨fun rest => ((depth + 1, c :: done), rest), .pure _, fun rest => ?_⟩)
    rw [body, if_pos hopen]
  by_cases hclose : (c == 0x29) = true
  · by_cases hdepth : depth ≤ 1
    · refine .inr (.inl ⟨done.reverse, fun rest => ?_⟩)
      rw [body, if_neg hopen, if_pos hclose, if_pos hdepth]
    · refine .inr (.inr ⟨fun rest => ((depth - 1, c :: done), rest), .pure _, fun rest => ?_⟩)
      rw [body, if_neg hopen, if_pos hclose, if_neg hdepth]
  by_cases hescape : (c == 0x5C) = true
  · refine .inr (.inr ⟨_, escape_local.map fun x => (depth, x.reverse ++ done), fun rest => ?_⟩)
    rw [body, if_neg hopen, if_neg hclose, if_pos hescape]
  · refine .inr (.inr ⟨fun rest => ((depth, c :: done), rest), .pure _, fun rest => ?_⟩)
    rw [body, if_neg hopen, if_neg hclose, if_neg hescape]

end LiteralString

namespace HexString

theorem body_local (high : Option UInt8) (done : Bytes) : Local (body high done) := by
  refine Local.loop (f := fun (i : Option UInt8 × Bytes) => body i.1 i.2)
    (fun i => (body.flush i.1 i.2).reverse) (fun _ => rfl) (fun (high, done) c => ?_) (high, done)
  by_cases hclose : (c == 0x3E) = true
  · refine .inr (.inl ⟨(body.flush high done).reverse, fun rest => ?_⟩)
    unfold body
    exact if_pos hclose
  cases hdigit : hexValue? c with
  | none =>
    refine .inr (.inr ⟨fun rest => ((high, done), rest), .pure _, fun rest => ?_⟩)
    simp only [body, hclose, Bool.false_eq_true, if_false, hdigit]
  | some digit =>
    cases high with
    | none =>
      refine .inr (.inr ⟨fun rest => ((some digit, done), rest), .pure _, fun rest => ?_⟩)
      simp only [body, hclose, Bool.false_eq_true, if_false, hdigit]
    | some h =>
      refine .inr (.inr ⟨fun rest => ((none, (h <<< 4 ||| digit) :: done), rest), .pure _,
        fun rest => ?_⟩)
      simp only [body, hclose, Bool.false_eq_true, if_false, hdigit]

/-- A first byte is sure to be read. -/
theorem body_cons_length_le (c : UInt8) (rest : Bytes) :
    (body none [] (c :: rest)).2.length ≤ rest.length := by
  unfold body
  split
  · exact Nat.le_refl _
  · split
    · exact body_length_le _ _ rest
    · exact body_length_le _ _ rest
    · exact body_length_le _ _ rest

end HexString

namespace Name

/-- Two hex digits go with the sign before them. -/
theorem spelled_local (sign : UInt8) (done : Bytes) : Local fun rest : Bytes =>
    match spelled? rest with
    | some (b, rest') => (b :: done, rest')
    | none => (sign :: done, rest) := by
  refine Local.two (sign :: done) rfl (fun _ => rfl) fun a b => ?_
  cases ha : hexValue? a with
  | none => exact .inl fun rest => by simp [spelled?, ha]
  | some high =>
    cases hb : hexValue? b with
    | none => exact .inl fun rest => by simp [spelled?, ha, hb]
    | some low =>
      exact .inr ⟨_, .pure ((high <<< 4 ||| low) :: done), fun rest => by
        simp [spelled?, ha, hb]⟩

theorem body_local (done : Bytes) : Local (body done) := by
  refine Local.loop (f := body) List.reverse (fun _ => by simp [body]) (fun done c => ?_) done
  by_cases hends : endsToken c = true
  · refine .inl fun rest => ?_
    rw [body, if_pos hends]
  by_cases hsign : (c == 0x23) = true
  · refine .inr (.inr ⟨_, spelled_local c done, fun rest => ?_⟩)
    rw [body, if_neg hends, if_pos hsign]
    cases spelled? rest <;> rfl
  · refine .inr (.inr ⟨fun rest => (c :: done, rest), .pure _, fun rest => ?_⟩)
    rw [body, if_neg hends, if_neg hsign]

end Name

/-! ## Tokens -/

namespace Token

theorem skipBlanks_local (inComment : Bool) : Local fun bs => ((), skipBlanks inComment bs) := by
  refine Local.loop (f := fun inComment bs => ((), skipBlanks inComment bs)) (fun _ => ())
    (fun inComment => by cases inComment <;> rfl) (fun inComment c => ?_) inComment
  cases inComment with
  | true =>
    refine .inr (.inr ⟨fun rest => (!isLineEnd c, rest), .pure _, fun rest => ?_⟩)
    rw [skipBlanks, if_pos rfl]
  | false =>
    by_cases hpercent : (c == 0x25) = true
    · refine .inr (.inr ⟨fun rest => (true, rest), .pure _, fun rest => ?_⟩)
      rw [skipBlanks, if_neg Bool.false_ne_true, if_pos hpercent]
    by_cases hblank : isBlank c = true
    · refine .inr (.inr ⟨fun rest => (false, rest), .pure _, fun rest => ?_⟩)
      rw [skipBlanks, if_neg Bool.false_ne_true, if_neg hpercent, if_pos hblank]
    · refine .inl fun rest => ?_
      rw [skipBlanks, if_neg Bool.false_ne_true, if_neg hpercent, if_neg hblank]

theorem scanWord_local : Local scanWord := by
  have hword : scanWord = fun bs =>
      ((if wordLimit ≤ Bytes.latin1Utf8Size (bs.takeWhile fun b => !endsToken b).dropLast then
        Except.error TokenFault.wordTooLong else .ok (ofWord (bs.takeWhile fun b => !endsToken b))),
        bs.dropWhile fun b => !endsToken b) := by
    funext bs
    rw [scanWord]
    split <;> rfl
  rw [hword]
  exact (Local.span _).map fun word => if wordLimit ≤ Bytes.latin1Utf8Size word.dropLast then
    Except.error TokenFault.wordTooLong else .ok (ofWord word)

/-- A byte that starts a token is followed by a local scan. -/
theorem scanFrom_local {c : UInt8} (hblank : isBlank c = false) (hpercent : (c == 0x25) = false) :
    Local (scanFrom c) := by
  have hlt : ∀ rest, (scanFrom c rest).2.length ≤ rest.length := fun rest =>
    Nat.le_of_lt_succ (scanFrom_length_lt c rest hblank hpercent)
  by_cases hnumeral : opensNumeral c = true
  · have heq : scanFrom c = fun rest => (.ok (.num (Numeral.scan (c :: rest)).1),
        (Numeral.scan (c :: rest)).2) := funext fun _ => if_pos hnumeral
    rw [heq] at hlt ⊢
    exact (Numeral.scan_local.after hlt).map fun x => Except.ok (Token.num x)
  by_cases hstring : (c == 0x28) = true
  · have heq : scanFrom c = fun rest => (.ok (.str (LiteralString.scan rest).1),
        (LiteralString.scan rest).2) :=
      funext fun _ => (if_neg hnumeral).trans (if_pos hstring)
    rw [heq]
    exact (LiteralString.body_local 1 []).map fun s => Except.ok (Token.str s)
  by_cases hname : (c == 0x2F) = true
  · have heq : scanFrom c = fun rest => (.ok (.name (Name.scan rest).1), (Name.scan rest).2) :=
      funext fun _ => (if_neg hnumeral).trans ((if_neg hstring).trans (if_pos hname))
    rw [heq]
    exact (Name.body_local []).map fun name => Except.ok (Token.name (Utf8.decode name))
  by_cases harray : (c == 0x5B) = true
  · have heq : scanFrom c = fun rest => (.ok .arrayStart, rest) := by
      funext rest
      rw [scanFrom, if_neg hnumeral, if_neg hstring, if_neg hname, if_pos harray]
    rw [heq]
    exact .pure _
  by_cases hend : (c == 0x5D) = true
  · have heq : scanFrom c = fun rest => (.ok .arrayEnd, rest) := by
      funext rest
      rw [scanFrom, if_neg hnumeral, if_neg hstring, if_neg hname, if_neg harray, if_pos hend]
    rw [heq]
    exact .pure _
  by_cases hless : (c == 0x3C) = true
  · have heq : scanFrom c = fun rest => if rest.head? == some 0x3C then (.ok .dictStart, rest.tail)
        else (.ok (.hexStr (HexString.scan rest).1), (HexString.scan rest).2) := by
      funext rest
      rw [scanFrom, if_neg hnumeral, if_neg hstring, if_neg hname, if_neg harray, if_neg hend,
        if_pos hless]
    rw [heq]
    -- a second bracket opens a dictionary
    refine Local.first (.ok (.hexStr [])) rfl fun d => .inr ?_
    by_cases hd : d = 0x3C
    · exact ⟨_, .pure (.ok .dictStart), fun rest => by simp [hd]⟩
    · exact ⟨_, ((HexString.body_local none []).after (HexString.body_cons_length_le d)).map
        fun s => Except.ok (Token.hexStr s), fun rest => by simp [hd, HexString.scan]⟩
  by_cases hgreater : (c == 0x3E) = true
  · have heq : scanFrom c = fun rest => if rest.head? == some 0x3E then (.ok .dictEnd, rest.tail)
        else (.error .strayGreater, rest) := by
      funext rest
      rw [scanFrom, if_neg hnumeral, if_neg hstring, if_neg hname, if_neg harray, if_neg hend,
        if_neg hless, if_pos hgreater]
    rw [heq]
    refine Local.first (.error .strayGreater) rfl fun d => ?_
    by_cases hd : d = 0x3E
    · exact .inr ⟨_, .pure (.ok .dictEnd), fun rest => by simp [hd]⟩
    · exact .inl fun rest => by simp [hd]
  by_cases hcurly : (c == 0x7B || c == 0x7D) = true
  · have heq : scanFrom c = fun rest => (.ok (.word (Bytes.latin1 [c])), rest) := by
      funext rest
      rw [scanFrom, if_neg hnumeral, if_neg hstring, if_neg hname, if_neg harray, if_neg hend,
        if_neg hless, if_neg hgreater, if_pos hcurly]
    rw [heq]
    exact .pure _
  by_cases hparen : (c == 0x29) = true
  · have heq : scanFrom c = fun rest => (.error .unbalancedParen, rest) := by
      funext rest
      rw [scanFrom, if_neg hnumeral, if_neg hstring, if_neg hname, if_neg harray, if_neg hend,
        if_neg hless, if_neg hgreater, if_neg hcurly, if_pos hparen]
    rw [heq]
    exact .pure _
  · have heq : scanFrom c = fun rest => scanWord (c :: rest) := by
      funext rest
      rw [scanFrom, if_neg hnumeral, if_neg hstring, if_neg hname, if_neg harray, if_neg hend,
        if_neg hless, if_neg hgreater, if_neg hcurly, if_neg hparen]
    rw [heq] at hlt ⊢
    exact scanWord_local.after hlt

/-- The token at the front, none if blanks stand before it. -/
def scanStart : Bytes → Except TokenFault Token × Bytes
  | [] => (.ok .eof, [])
  | c :: rest => if isBlank c || c == 0x25 then (.ok .eof, c :: rest) else scanFrom c rest

theorem scanStart_local : Local scanStart := by
  refine Local.first (.ok .eof) rfl fun c => ?_
  by_cases hc : (isBlank c || c == 0x25) = true
  · exact .inl fun _ => if_pos hc
  · refine .inr ⟨scanFrom c, ?_, fun _ => if_neg hc⟩
    simp only [Bool.or_eq_true, not_or, Bool.not_eq_true] at hc
    exact scanFrom_local hc.1 hc.2

theorem scan_eq (bs : Bytes) : scan bs = scanStart (skipBlanks false bs) := by
  unfold scan
  split
  · rename_i hs
    rw [hs]
    rfl
  · rename_i c rest hs
    obtain ⟨hblank, hpercent⟩ := skipBlanks_eq_cons hs
    rw [hs, scanStart, hblank, hpercent]
    rfl

/-- **A token does not depend on what its scan does not reach.** -/
theorem scan_local : Local scan := by
  rw [funext scan_eq]
  exact (skipBlanks_local false).bind fun _ => scanStart_local

/-- A first byte is sure to be read, if only as a blank. -/
theorem scan_cons_length_le (c : UInt8) (rest : Bytes) : (scan (c :: rest)).2.length ≤ rest.length := by
  by_cases h : skipBlanks false (c :: rest) = []
  · simp [scan, h]
  · exact Nat.le_of_lt_succ (scan_length_lt _ h)

/-- Blanks that end before the tail are skipped whatever the tail is. -/
theorem skipBlanks_append {inComment : Bool} {s w : Bytes} {c : UInt8} {t : Bytes}
    (h : skipBlanks inComment (s ++ w) = c :: t ++ w) (w' : Bytes) :
    skipBlanks inComment (s ++ w') = c :: t ++ w' := by
  induction s generalizing inComment with
  | nil =>
    have hle := skipBlanks_length_le inComment w
    rw [List.nil_append] at h
    rw [h] at hle
    simp only [List.length_append, List.length_cons] at hle
    omega
  | cons b s ih =>
    rw [List.cons_append, skipBlanks] at h ⊢
    split
    · exact ih (by simpa [*] using h)
    split
    · exact ih (by simpa [*] using h)
    split
    · exact ih (by simpa [*] using h)
    · simp_all

end Token

theorem Lookahead.nextToken_local : Local nextToken := by
  -- the state is the token, once there is one
  have hloop := Local.loop (f := fun (found : Option Token) bs => match found with
    | some t => (t, bs)
    | none => nextToken bs) (fun found => found.getD .eof)
    (fun found => by
      cases found with
      | some t => rfl
      | none => rw [nextToken_eq]; rfl)
    fun found c => by
      cases found with
      | some t => exact .inl fun _ => rfl
      | none =>
        refine .inr (.inr ⟨_, (Token.scan_local.after (Token.scan_cons_length_le c)).map
          fun r => r.toOption, fun rest => ?_⟩)
        dsimp only
        rw [nextToken_eq]
        rcases Token.scan (c :: rest) with ⟨_ | t, rest'⟩ <;> rfl
  exact hloop none

namespace StreamBody

theorem dropOne_local (b : UInt8) : Local fun bs => ((), dropOne b bs) := by
  refine Local.first () rfl fun c => ?_
  by_cases hc : c = b
  · exact .inr ⟨_, .pure (), fun rest => by simp [dropOne, hc]⟩
  · exact .inl fun rest => by simp [dropOne, hc]

theorem skipLineEnd_local : Local fun bs => ((), skipLineEnd bs) :=
  (Local.dropWhile _).bind fun _ => (dropOne_local 0x0D).bind fun _ => dropOne_local 0x0A

theorem toMark_local (done : Bytes) : Local (toMark done) := by
  refine Local.loop (f := toMark) List.reverse (fun _ => rfl) (fun done b => ?_) done
  by_cases hmark : mark.reverse.isPrefixOf (b :: done) = true
  · refine .inr (.inl ⟨(dropLineEnd ((b :: done).drop mark.length)).reverse, fun rest => ?_⟩)
    rw [toMark, if_pos hmark]
  · refine .inr (.inr ⟨fun rest => (b :: done, rest), .pure _, fun rest => ?_⟩)
    rw [toMark, if_neg hmark]

/-- A body of `n` bytes in front of the tail is taken whatever the tail is. -/
theorem measured_append {n : Nat} {s w t : Bytes}
    (h : Token.skipBlanks false ((s ++ w).drop n) = mark ++ t ++ w) (w' : Bytes) :
    (s ++ w').take n = (s ++ w).take n ∧
      Token.skipBlanks false ((s ++ w').drop n) = mark ++ t ++ w' := by
  have hlength := Token.skipBlanks_length_le false ((s ++ w).drop n)
  rw [h] at hlength
  simp only [List.length_append, List.length_drop] at hlength
  have hmark : mark.length = 9 := by decide
  have hn : n ≤ s.length := by omega
  rw [List.drop_append_of_le_length hn] at h ⊢
  rw [List.take_append_of_le_length hn, List.take_append_of_le_length hn]
  exact ⟨rfl, Token.skipBlanks_append (c := 0x65) h w'⟩

/-- **A stream's body does not depend on what its scan does not reach.** -/
theorem body_local (length : Option Nat) : Local (body length) := by
  cases length with
  | none => exact skipLineEnd_local.bind fun _ => toMark_local []
  | some n =>
    refine skipLineEnd_local.bind (g := fun _ bs =>
      if mark.isPrefixOf (Token.skipBlanks false (bs.drop n)) then
        (bs.take n, (Token.skipBlanks false (bs.drop n)).drop mark.length)
      else toMark [] bs) fun _ => ⟨fun bs => ?_, fun s w w' h h' => ?_⟩
    · have hblanks := Token.skipBlanks_length_le false (bs.drop n)
      rw [List.length_drop] at hblanks
      split
      · rw [List.length_drop]
        omega
      · exact toMark_length_le [] bs
    · -- a length that is trusted with one tail is trusted with the other
      have htrusted : ∀ w : Bytes, mark.isPrefixOf (Token.skipBlanks false ((s ++ w).drop n)) = true →
          w.length ≤ ((Token.skipBlanks false ((s ++ w).drop n)).drop mark.length).length →
          ∃ t, Token.skipBlanks false ((s ++ w).drop n) = mark ++ t ++ w := by
        intro w hmark hw
        obtain ⟨x, hx⟩ := List.isPrefixOf_iff_prefix.mp hmark
        have hlength := Token.skipBlanks_length_le false ((s ++ w).drop n)
        rw [← hx, List.drop_left] at hw
        rw [← hx] at hlength
        simp only [List.length_append, List.length_drop] at hlength
        have hpositive : 0 < mark.length := by decide
        have hn : n ≤ s.length := by omega
        rw [List.drop_append_of_le_length hn] at hx ⊢
        obtain ⟨_, u, hu, -⟩ := (Token.skipBlanks_local false).agrees (s.drop n) w w
          (by rw [← hx, List.length_append]; omega) (by rw [← hx, List.length_append]; omega)
        have hu : Token.skipBlanks false (s.drop n ++ w) = u ++ w := congrArg Prod.snd hu
        rw [hu] at hx ⊢
        have hlonger : mark.length ≤ u.length := by
          have := congrArg List.length hx
          simp only [List.length_append] at this
          omega
        obtain ⟨t, rfl⟩ : mark <+: u :=
          List.prefix_of_prefix_length_le ⟨x, hx⟩ (List.prefix_append u w) hlonger
        exact ⟨t, rfl⟩
      have htaken : ∀ w w' : Bytes, (∃ t, Token.skipBlanks false ((s ++ w).drop n) = mark ++ t ++ w) →
          mark.isPrefixOf (Token.skipBlanks false ((s ++ w').drop n)) = true := by
        rintro w w' ⟨t, ht⟩
        rw [(measured_append ht w').2, List.append_assoc]
        exact List.isPrefixOf_iff_prefix.mpr (List.prefix_append mark _)
      by_cases hmark : mark.isPrefixOf (Token.skipBlanks false ((s ++ w).drop n)) = true
      · rw [if_pos hmark] at h ⊢
        obtain ⟨t, ht⟩ := htrusted w hmark h
        obtain ⟨hdata, ht'⟩ := measured_append ht w'
        rw [if_pos (htaken w w' ⟨t, ht⟩)]
        refine ⟨(s ++ w).take n, t, ?_, ?_⟩
        · rw [ht, List.append_assoc, List.drop_left]
        · rw [hdata, ht', List.append_assoc, List.drop_left]
      by_cases hmark' : mark.isPrefixOf (Token.skipBlanks false ((s ++ w').drop n)) = true
      · rw [if_pos hmark'] at h'
        exact absurd (htaken w' w (htrusted w' hmark' h')) hmark
      · rw [if_neg hmark] at h ⊢
        rw [if_neg hmark'] at h' ⊢
        exact (toMark_local []).agrees s w w' h h'

end StreamBody

end PdfScene
