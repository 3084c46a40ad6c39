import PdfScene.Filter.RunLength

/-!
# Chunks of RunLengthDecode

What a length byte and the bytes behind it stand for is a `Chunk`: bytes as they are, or copies of one
byte. Any row of chunks can be written, and nothing asks a writer to choose them well, so what can be
said of decoding is said for all rows: `decode_chunks`. Behind the chunks there may be the mark that
ends the data, with anything after it.

Data may be cut off at any byte. Then the chunks before the cut come out whole, and the one that is cut
gives the bytes that are there, or nothing if it is a byte to be copied that is missing. Both are one
induction over the chunks, in `body_take_encode`, with the cut moving along.
-/

set_option autoImplicit false

namespace PdfScene.RunLength

/-! ## Writing chunks -/

/-- A piece of data that one length byte opens. -/
inductive Chunk where
  /-- Bytes that stand for themselves. -/
  | literal (bytes : Bytes) (hlength : 1 ≤ bytes.length ∧ bytes.length ≤ 128)
  | copies (count : Nat) (b : UInt8) (hcount : 2 ≤ count ∧ count ≤ 128)

namespace Chunk

/-- What a chunk stands for. -/
def content : Chunk → Bytes
  | literal bytes _ => bytes
  | copies count b _ => List.replicate count b

def encode : Chunk → Bytes
  | literal bytes _ => UInt8.ofNat (bytes.length - 1) :: bytes
  | copies count b _ => [UInt8.ofNat (257 - count), b]

/-- What the first `cut` bytes of a chunk determine, when more of it is missing. -/
def part : Chunk → Nat → Bytes
  | literal bytes _, cut => bytes.take (cut - 1)
  | copies _ _ _, _ => []

end Chunk

/-- What some chunks stand for, one after the other. -/
def content (chunks : List Chunk) : Bytes := chunks.flatMap Chunk.content

/-- Chunks as data. -/
def encode (chunks : List Chunk) : Bytes := chunks.flatMap Chunk.encode

/-- The end of data: nothing, or the mark that ends it and whatever comes after. -/
def ending : Option Bytes → Bytes
  | none => []
  | some after => 128 :: after

/-- What the first `cut` bytes of some chunks hold: the complete chunks, and the part of the next. -/
def held : List Chunk → Nat → Bytes
  | [], _ => []
  | c :: chunks, cut =>
    if c.encode.length ≤ cut then c.content ++ held chunks (cut - c.encode.length) else c.part cut

/-! ## Reading one chunk -/

theorem body_literal {n : Nat} (hn : 1 ≤ n ∧ n ≤ 128) (done rest : Bytes) :
    body done (UInt8.ofNat (n - 1) :: rest) = body ((rest.take n).reverse ++ done) (rest.drop n) := by
  have hvalue : (UInt8.ofNat (n - 1)).toNat = n - 1 :=
    UInt8.toNat_ofNat_of_lt' (show n - 1 < 256 by omega)
  have hlow : UInt8.ofNat (n - 1) < 128 := by
    rw [UInt8.lt_iff_toNat_lt, hvalue]
    exact show n - 1 < 128 by omega
  have hmark : ¬ UInt8.ofNat (n - 1) = 128 := UInt8.ne_of_lt hlow
  have hlength : (UInt8.ofNat (n - 1)).toNat + 1 = n := by omega
  rw [body.eq_def]
  simp only [beq_iff_eq, hmark, hlow, hlength, if_true, if_false]

theorem copies_bounds {n : Nat} (hn : 2 ≤ n ∧ n ≤ 128) :
    ¬ UInt8.ofNat (257 - n) = 128 ∧ ¬ UInt8.ofNat (257 - n) < 128 ∧
      257 - (UInt8.ofNat (257 - n)).toNat = n := by
  have hvalue : (UInt8.ofNat (257 - n)).toNat = 257 - n :=
    UInt8.toNat_ofNat_of_lt' (show 257 - n < 256 by omega)
  have hhigh : 128 < UInt8.ofNat (257 - n) := by
    rw [UInt8.lt_iff_toNat_lt, hvalue]
    exact show 128 < 257 - n by omega
  exact ⟨(UInt8.ne_of_lt hhigh).symm, UInt8.lt_asymm hhigh, by omega⟩

theorem body_copies {n : Nat} (hn : 2 ≤ n ∧ n ≤ 128) (done : Bytes) (b : UInt8) (rest : Bytes) :
    body done (UInt8.ofNat (257 - n) :: b :: rest) = body (List.replicate n b ++ done) rest := by
  obtain ⟨hmark, hhigh, hcount⟩ := copies_bounds hn
  rw [body.eq_def]
  simp only [beq_iff_eq, hmark, hhigh, hcount, if_false]

/-- A byte that is to be copied and is missing gives nothing. -/
theorem body_copies_nil {n : Nat} (hn : 2 ≤ n ∧ n ≤ 128) (done : Bytes) :
    body done [UInt8.ofNat (257 - n)] = done.reverse := by
  obtain ⟨hmark, hhigh, -⟩ := copies_bounds hn
  rw [body.eq_def]
  simp only [beq_iff_eq, hmark, hhigh, if_false]

/-- **A whole chunk is read as what it stands for.** -/
theorem body_chunk (c : Chunk) (done rest : Bytes) :
    body done (c.encode ++ rest) = body (c.content.reverse ++ done) rest := by
  cases c with
  | literal bytes hlength =>
    rw [Chunk.encode, List.cons_append, body_literal hlength, List.take_left, List.drop_left]
    rfl
  | copies count b hcount =>
    rw [Chunk.encode, List.cons_append, List.singleton_append, body_copies hcount, Chunk.content,
      List.reverse_replicate]

/-- **Of a chunk that is cut off, the part that is there is read.** -/
theorem body_part (c : Chunk) (done : Bytes) {cut : Nat} (hcut : cut < c.encode.length) :
    body done (c.encode.take cut) = done.reverse ++ c.part cut := by
  cases cut with
  | zero => cases c <;> simp [Chunk.part, body]
  | succ cut =>
    cases c with
    | literal bytes hlength =>
      rw [Chunk.encode, List.length_cons] at hcut
      have hall : (bytes.take cut).length ≤ bytes.length := List.length_take_le' cut bytes
      rw [Chunk.encode, List.take_succ_cons, body_literal hlength, Chunk.part, Nat.add_sub_cancel,
        List.take_take, Nat.min_eq_right (by omega), List.drop_eq_nil_of_le hall, body,
        List.reverse_append, List.reverse_reverse]
    | copies count b hcount =>
      obtain rfl : cut = 0 := by simp [Chunk.encode] at hcut; omega
      rw [Chunk.encode, List.take_succ_cons, List.take_zero, body_copies_nil hcount, Chunk.part,
        List.append_nil]

theorem body_ending (done : Bytes) (after : Option Bytes) (cut : Nat) :
    body done ((ending after).take cut) = done.reverse := by
  cases after with
  | none => rw [ending, List.take_nil, body]
  | some after =>
    cases cut with
    | zero => rw [List.take_zero, body]
    | succ cut =>
      rw [ending, List.take_succ_cons, body.eq_def]
      rfl

/-! ## Reading chunks -/

/-- Reading what is left of some chunks gives what they hold up to the cut. -/
theorem body_take_encode (chunks : List Chunk) (after : Option Bytes) (done : Bytes) (cut : Nat) :
    body done ((encode chunks ++ ending after).take cut) = done.reverse ++ held chunks cut := by
  induction chunks generalizing done cut with
  | nil => simp only [encode, List.flatMap_nil, List.nil_append, body_ending, held, List.append_nil]
  | cons c chunks ih =>
    have hsplit : encode (c :: chunks) ++ ending after =
        c.encode ++ (encode chunks ++ ending after) := by
      simp only [encode, List.flatMap_cons, List.append_assoc]
    rw [hsplit, held]
    split
    · rename_i hcut
      rw [List.take_append, List.take_of_length_le hcut, body_chunk, ih, List.reverse_append,
        List.reverse_reverse, List.append_assoc]
    · rename_i hcut
      rw [List.take_append_of_le_length (by omega), body_part c done (by omega)]

theorem held_of_length_le {chunks : List Chunk} {cut : Nat} (h : (encode chunks).length ≤ cut) :
    held chunks cut = content chunks := by
  induction chunks generalizing cut with
  | nil => rfl
  | cons c chunks ih =>
    rw [encode, List.flatMap_cons, List.length_append, ← encode] at h
    rw [held, if_pos (by omega), ih (by omega)]
    rfl

theorem part_begins (c : Chunk) (cut : Nat) : c.part cut <+: c.content := by
  cases c with
  | literal bytes _ => exact List.take_prefix _ _
  | copies _ _ _ => exact List.nil_prefix

/-- What a cut leaves begins what the chunks stand for. -/
theorem held_begins (chunks : List Chunk) (cut : Nat) : held chunks cut <+: content chunks := by
  induction chunks generalizing cut with
  | nil => exact List.nil_prefix
  | cons c chunks ih =>
    rw [held]
    split
    · exact (List.prefix_append_right_inj _).mpr (ih _)
    · exact (part_begins c cut).trans (List.prefix_append _ _)

/-- **Decoding gives back the content of any chunks**, whether or not the mark that ends data is behind
them, and whatever is behind the mark. Of data that is cut off anywhere it gives what the bytes that are
left hold: the complete chunks and the part that is left of the next, which begin the content. -/
theorem decode_chunks (chunks : List Chunk) (after : Option Bytes) :
    decode (encode chunks ++ ending after) = content chunks ∧
      ∀ cut, decode ((encode chunks ++ ending after).take cut) = held chunks cut ∧
        held chunks cut <+: content chunks := by
  have htake (cut : Nat) : decode ((encode chunks ++ ending after).take cut) = held chunks cut :=
    body_take_encode chunks after [] cut
  refine ⟨?_, fun cut => ⟨htake cut, held_begins chunks cut⟩⟩
  have hwhole := htake (encode chunks ++ ending after).length
  rwa [List.take_length, held_of_length_le (by simp)] at hwhole

example : decode [2, 97, 98, 99, 254, 120, 128] = [97, 98, 99, 120, 120, 120] := by cbv

end PdfScene.RunLength
