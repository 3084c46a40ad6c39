import PdfScene.Proofs.Font.Ranges

/-!
# Sections of a character map

A section is its entries between two words. The reader collects operands and forgets them at every word
it does not know, so a section starts anew whatever stands in front of it, and its last word hands all
of the entries over at once (`Section.foldl_feed`).
-/

set_option autoImplicit false

namespace PdfScene.CMap

open Assignments

inductive Section where
  /-- Codes and their texts. -/
  | pairs (entries : List (Bytes × Bytes))
  | ranges (entries : List Range)

/-- A pair as it is written. -/
def pairTokens (e : Bytes × Bytes) : List Token := [.hexStr e.1, .hexStr e.2]

def pairWritten (e : Bytes × Bytes) : Bytes := HexString.written e.1 ++ HexString.written e.2

namespace Section

def opening : Section → String
  | pairs _ => "beginbfchar"
  | ranges _ => "beginbfrange"

def closing : Section → String
  | pairs _ => "endbfchar"
  | ranges _ => "endbfrange"

def operands : Section → List Token
  | pairs entries => entries.flatMap pairTokens
  | ranges entries => entries.flatMap Range.tokens

/-- A section as it is written. -/
def tokens (s : Section) : List Token := .word s.opening :: (s.operands ++ [.word s.closing])

def entriesWritten : Section → Bytes
  | pairs entries => entries.flatMap pairWritten
  | ranges entries => entries.flatMap Range.written

/-- A section in bytes. -/
def written (s : Section) : Bytes :=
  Bytes.ofAscii s.opening ++ 0x0A :: (s.entriesWritten ++ (Bytes.ofAscii s.closing ++ [0x0A]))

end Section

/-! ## What is written is read back -/

theorem readAll_pairWritten (e : Bytes × Bytes) (rest : Bytes) :
    Token.readAll (pairWritten e ++ rest) = pairTokens e ++ Token.readAll rest := by
  rw [pairWritten, List.append_assoc, HexString.readAll_written, HexString.readAll_written]
  rfl

namespace Section

theorem readAll_entriesWritten (s : Section) (rest : Bytes) :
    Token.readAll (s.entriesWritten ++ rest) = s.operands ++ Token.readAll rest := by
  cases s with
  | pairs entries => exact Token.readAll_flatMap readAll_pairWritten entries rest
  | ranges entries => exact Token.readAll_flatMap Range.readAll_written entries rest

theorem readAll_written (s : Section) (rest : Bytes) :
    Token.readAll (s.written ++ rest) = s.tokens ++ Token.readAll rest := by
  have hopening (bs : Bytes) : Token.scan (Bytes.ofAscii s.opening ++ 0x0A :: bs) =
      (.ok (.word s.opening), 0x0A :: bs) := by
    cases s <;> dsimp only [opening] <;> rfl
  have hclosing (bs : Bytes) : Token.scan (Bytes.ofAscii s.closing ++ 0x0A :: bs) =
      (.ok (.word s.closing), 0x0A :: bs) := by
    cases s <;> dsimp only [closing] <;> rfl
  simp only [written, tokens, List.append_assoc, List.cons_append, List.nil_append,
    Token.readAll_line (hopening _) nofun, readAll_entriesWritten, Token.readAll_line (hclosing _) nofun]

end Section

/-! ## Reading sections -/

/-- A token that is no word. -/
def IsOperand (t : Token) : Prop := ∀ w, t ≠ .word w

namespace Reader

theorem feed_operand (r : Reader) {t : Token} (h : IsOperand t) :
    r.feed t = ⟨t :: r.operands, r.map⟩ := by
  cases t <;> first | rfl | exact absurd rfl (h _)

theorem foldl_operands (r : Reader) {ts : List Token} (h : ∀ t ∈ ts, IsOperand t) :
    ts.foldl feed r = ⟨ts.reverse ++ r.operands, r.map⟩ := by
  induction ts generalizing r with
  | nil => rfl
  | cons t ts ih =>
    rw [List.forall_mem_cons] at h
    rw [List.foldl_cons, r.feed_operand h.1, ih _ h.2]
    simp

end Reader

theorem Range.isOperand_tokens (e : Range) : ∀ t ∈ e.tokens, IsOperand t := by
  obtain ⟨low, high, target⟩ := e
  cases target with
  | run start => simp [tokens, IsOperand]
  | list texts =>
    simp only [tokens, List.mem_cons, List.mem_append, List.mem_map, List.not_mem_nil, or_false]
    rintro t (rfl | rfl | rfl | ⟨text, -, rfl⟩ | rfl) w h <;> cases h

namespace Section

theorem isOperand_operands (s : Section) : ∀ t ∈ s.operands, IsOperand t := by
  intro t ht
  cases s with
  | pairs entries =>
    obtain ⟨e, -, hte⟩ := List.mem_flatMap.mp ht
    revert hte
    simp only [pairTokens, List.mem_cons, List.not_mem_nil, or_false]
    rintro (rfl | rfl) w h <;> cases h
  | ranges entries =>
    obtain ⟨e, -, hte⟩ := List.mem_flatMap.mp ht
    exact e.isOperand_tokens t hte

/-- A map with what the entries of a section say. -/
def addTo (s : Section) (m : CMap) : CMap :=
  match s with
  | pairs _ => m.readPairs s.operands
  | ranges _ => m.readRanges s.operands

/-- A section is read alike whatever operands stand in front of it. -/
theorem foldl_feed (s : Section) (r : Reader) :
    s.tokens.foldl Reader.feed r = ⟨[], s.addTo r.map⟩ := by
  have hopening : r.feed (.word s.opening) = ⟨[], r.map⟩ := by
    cases s <;> simp [Reader.feed, opening]
  have hclosing (operands : List Token) (m : CMap) :
      Reader.feed ⟨operands, m⟩ (.word s.closing) =
        ⟨[], match s with
          | pairs _ => m.readPairs operands.reverse
          | ranges _ => m.readRanges operands.reverse⟩ := by
    cases s <;> simp [Reader.feed, closing]
  rw [tokens, List.foldl_cons, hopening, List.foldl_append, Reader.foldl_operands _ s.isOperand_operands,
    List.foldl_cons, hclosing, List.append_nil, List.reverse_reverse]
  cases s <;> rfl

theorem ofTokens_append (s : Section) (before after : List Token) :
    ofTokens (before ++ (s.tokens ++ after)) =
      (after.foldl Reader.feed ⟨[], s.addTo (ofTokens before)⟩).map := by
  rw [ofTokens, List.foldl_append, List.foldl_append, foldl_feed]
  rfl

/-- A section that is all there is. -/
theorem ofBytes_written (s : Section) : ofBytes s.written = s.addTo empty := by
  have hread := s.readAll_written []
  rw [List.append_nil, Token.readAll_nil, List.append_nil] at hread
  have hadd := s.ofTokens_append [] []
  rw [List.append_nil, List.nil_append] at hadd
  rw [ofBytes, hread, hadd]
  rfl

end Section

theorem readPairs_eq (m : CMap) (entries : List (Bytes × Bytes)) :
    m.readPairs (entries.flatMap pairTokens) =
      m.insertAll (entries.map fun e => (codeOf e.1, textOf e.2)) := by
  induction entries generalizing m with
  | nil => simp [readPairs]
  | cons e entries ih =>
    rw [List.map_cons, insertAll_cons, ← ih]
    rfl

end PdfScene.CMap
