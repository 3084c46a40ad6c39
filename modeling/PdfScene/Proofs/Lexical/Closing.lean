import PdfScene.Proofs.Lexical.LineFeed
import PdfScene.Proofs.Lexical.Locality

/-!
# Input that ends in an angle bracket

The source of a dictionary ends in an angle bracket, and what is behind it must not change how the
dictionary is cut into tokens. It does not: a token that leaves that bracket is the same whatever comes
behind it (`scan_closing`). A string that is still open there would take the bracket in, so there is
none.
-/

set_option autoImplicit false

namespace PdfScene

open Byte

/-- What a local scan leaves is the end of its input. -/
theorem Local.suffix {α : Type} {f : Bytes → α × Bytes} (hf : Local f) (bs : Bytes) :
    (f bs).2 <:+ bs := by
  have hshrinks := hf.shrinks bs
  have hsplit := List.take_append_drop (bs.length - (f bs).2.length) bs
  have hlength : (bs.drop (bs.length - (f bs).2.length)).length = (f bs).2.length := by
    rw [List.length_drop]
    omega
  obtain ⟨a, t, heq, -⟩ := hf.agrees (bs.take (bs.length - (f bs).2.length))
    (bs.drop (bs.length - (f bs).2.length)) (bs.drop (bs.length - (f bs).2.length))
    (by rw [hsplit, hlength]) (by rw [hsplit, hlength])
  rw [hsplit] at heq
  have ht : t = [] := by
    have hrest := congrArg (fun r => r.2.length) heq
    simp only [List.length_append, hlength] at hrest
    exact List.eq_nil_of_length_eq_zero (by omega)
  rw [heq, ht, List.nil_append]
  exact List.drop_suffix _ _

/-- What is left of input with a last byte is nothing, or it has the same one. -/
theorem eq_concat_of_suffix {rest s : Bytes} {c : UInt8} (h : rest <:+ s ++ [c]) (hrest : rest ≠ []) :
    ∃ t, rest = t ++ [c] ∧ t <:+ s := by
  rcases List.suffix_concat_iff.mp h with rfl | ⟨t, ht, hts⟩
  · exact absurd rfl hrest
  · exact ⟨t, ht, hts⟩

namespace LiteralString

/-- The bracket does not close a string. -/
theorem isUnclosed_greater {depth : Nat} {escaped : Bool} {s : Bytes}
    (h : isUnclosed depth escaped s = true) : isUnclosed depth escaped (s ++ [0x3E]) = true := by
  fun_induction isUnclosed depth escaped s with
  | case1 depth escaped => cases escaped <;> rfl
  | _ => simp_all [isUnclosed]

end LiteralString

namespace HexString

/-- It does close a hex string. -/
theorem body_greater {s : Bytes} (h : s.contains 0x3E = false) (high : Option UInt8) (done : Bytes) :
    (body high done (s ++ [0x3E])).2 = [] := by
  induction s generalizing high done with
  | nil => rfl
  | cons c rest ih =>
    rw [List.contains_cons, Bool.or_eq_false_iff, beq_eq_false_iff_ne] at h
    have hclose : ¬(c == 0x3E) = true := fun hc => h.1 (beq_iff_eq.mp hc).symm
    rw [List.cons_append]
    unfold body
    rw [if_neg hclose]
    cases hexValue? c <;> cases high <;> exact ih h.2 _ _

end HexString

namespace Token

variable {s t : Bytes} {c : UInt8} {r : Except TokenFault Token}

theorem scanFrom_closing (h : scanFrom c (s ++ [0x3E]) = (r, t ++ [0x3E])) (w : Bytes) :
    scanFrom c (s ++ 0x3E :: w) = (r, t ++ 0x3E :: w) := by
  have hmore : (scanFrom c (s ++ [0x3E])).2 ≠ [] := by simp [h]
  have hstring : opensString (c :: s) = false := by
    rw [Bool.eq_false_iff]
    intro hopen
    rw [opensString, Bool.and_eq_true] at hopen
    have hruns : runsOn (c :: (s ++ [0x3E])) = true := by
      simp [runsOn, opensString, hopen.1, LiteralString.isUnclosed_greater hopen.2]
    obtain ⟨literal, hscan, -⟩ := scanFrom_of_runsOn hruns
    exact hmore (by rw [hscan])
  have hhex : opensHexString (c :: s) = false := by
    rw [Bool.eq_false_iff]
    intro hopen
    simp only [opensHexString, Bool.and_eq_true, beq_iff_eq, bne_iff_ne, Bool.not_eq_true'] at hopen
    obtain ⟨⟨rfl, hsingle⟩, hnone⟩ := hopen
    have hfirst : (s ++ [0x3E]).head? ≠ some 0x3C := by
      cases s <;> simp_all
    refine hmore ?_
    change (if ((s ++ [0x3E]).head? == some 0x3C) = true then _
      else (_, (HexString.scan (s ++ [0x3E])).2)).2 = []
    rw [if_neg (by rwa [beq_iff_eq])]
    exact HexString.body_greater hnone none []
  have hangle : (0x3E : UInt8) ≠ 0x3E ∨ c :: s ≠ [0x3E] := by
    refine .inr fun hhalf => ?_
    cases hhalf
    exact hmore rfl
  have hbreaks := scanFrom_breaksAt rfl hstring hhex (.inl rfl) hangle
  rw [hbreaks []] at h
  rw [hbreaks w]
  obtain ⟨hresult, hrest⟩ := Prod.mk.inj h
  rw [hresult, List.append_cancel_right hrest]

/-- **A token in front of the last bracket is the same whatever comes behind that.** -/
theorem scan_closing (h : scan (s ++ [0x3E]) = (r, t ++ [0x3E])) (w : Bytes) :
    scan (s ++ 0x3E :: w) = (r, t ++ 0x3E :: w) := by
  cases hs : skipBlanks false (s ++ [0x3E]) with
  | nil =>
    rw [scan_nil hs] at h
    simp at h
  | cons c rest =>
    rw [scan_cons hs] at h
    have hsuffix : c :: rest <:+ s ++ [0x3E] := hs ▸ (skipBlanks_local false).suffix (s ++ [0x3E])
    cases rest with
    | nil =>
      obtain ⟨u, hu, -⟩ := eq_concat_of_suffix hsuffix (List.cons_ne_nil _ _)
      obtain rfl : c = 0x3E := by
        cases u with
        | nil => exact (List.cons.inj hu).1
        | cons d u => simp at hu
      have hrest : [] = t ++ [0x3E] := congrArg Prod.snd h
      simp at hrest
    | cons d rest =>
      have hlast : d :: rest <:+ s ++ [0x3E] := (List.suffix_cons c _).trans hsuffix
      obtain ⟨u, hu, -⟩ := eq_concat_of_suffix hlast (List.cons_ne_nil _ _)
      rw [hu] at h hs
      have hskip : skipBlanks false (s ++ 0x3E :: w) = c :: (u ++ 0x3E :: w) :=
        skipBlanks_append hs (0x3E :: w)
      rw [scan_cons hskip, scanFrom_closing h]

end Token

/-- The same goes for a token behind malformed ones. -/
theorem Lookahead.nextToken_closing {s t : Bytes} {next : Token}
    (h : nextToken (s ++ [0x3E]) = (next, t ++ [0x3E])) (w : Bytes) :
    nextToken (s ++ 0x3E :: w) = (next, t ++ 0x3E :: w) := by
  induction hlength : s.length using Nat.strongRecOn generalizing s with
  | ind n ih =>
  rw [nextToken_eq] at h ⊢
  rcases hscan : Token.scan (s ++ [0x3E]) with ⟨fault | found, rest⟩ <;> rw [hscan] at h
  · dsimp only at h
    have hsuffix : rest <:+ s ++ [0x3E] := by
      have hlocal := Token.scan_local.suffix (s ++ [0x3E])
      rwa [hscan] at hlocal
    have hrest : rest ≠ [] := by
      rintro rfl
      have hend : nextToken [] = (.eof, []) := by
        rw [nextToken_eq]
        rfl
      rw [hend] at h
      simp at h
    obtain ⟨u, rfl, hu⟩ := eq_concat_of_suffix hsuffix hrest
    have hprogress := Token.scan_progress hscan nofun
    rw [Token.scan_closing hscan w]
    simp only [List.length_append, List.length_singleton] at hprogress
    exact ih u.length (by omega) h rfl
  · cases h
    rw [Token.scan_closing hscan w]

end PdfScene
