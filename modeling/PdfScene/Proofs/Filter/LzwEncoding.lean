import PdfScene.Filter.Lzw
import PdfScene.Proofs.Filter.Bits

/-!
# Encoding for LZWDecode

An encoder keeps a table of its own. It writes the code of the longest string that the input starts
with, and adds that string with the next byte of the input; when the table is full, or earlier if it
likes, it writes a clear mark and starts over. The decoder learns of a string one code later, when it
sees with which byte the next one begins, so the widths of codes go by what the decoder knows.

Decoding gives back what was encoded (`decode_encode`). The invariant is `Follows`: the decoder's table
is the encoder's without its last string, which the decoder can make out of the code before and the input
to come. It is kept by a code that is found (`Follows.next`) and by a clear mark (`Follows.clear`).
-/

set_option autoImplicit false

namespace PdfScene.Lzw

/-! ## The encoder -/

structure Encoder where
  /-- The strings of the codes from 258 on. -/
  strings : List Bytes
  /-- How many codes have been written since the table was cleared. -/
  written : Nat

namespace Encoder

def fresh : Encoder := ⟨[], 0⟩

/-- How many codes there are, those of single bytes and the two marks among them. -/
def size (e : Encoder) : Nat := 258 + e.strings.length

/-- How many of them the decoder knows. The first code behind a clear mark completes no string for it,
and each further one completes one. -/
def known (e : Encoder) : Nat := 258 + (e.written - 1)

/-- The width of the next code: one bit more from each of three sizes on. -/
def width (early : Bool) (e : Encoder) : Nat :=
  let size := e.known + early.toNat
  9 + (if 512 ≤ size then 1 else 0) + (if 1024 ≤ size then 1 else 0) + (if 2048 ≤ size then 1 else 0)

def write (early : Bool) (e : Encoder) (code : Nat) : List Bool := Bits.ofNat (e.width early) code

/-- The string that a code stands for, unless it is a mark or not in use. -/
def string? (e : Encoder) (code : Nat) : Option Bytes :=
  if code < 256 then some [UInt8.ofNat code] else if code < 258 then none else e.strings[code - 258]?

/-- The longer one of two matches, the first if they are equally long. -/
def longer (input : Bytes) (best : Bytes × Nat) (other : Bytes × Nat) : Bytes × Nat :=
  if other.1.isPrefixOf input && best.1.length < other.1.length then other else best

/-- The longest string in the table that the input `b :: rest` starts with, and its code. -/
def longest (e : Encoder) (b : UInt8) (rest : Bytes) : Bytes × Nat :=
  (e.strings.zipIdx 258).foldl (longer (b :: rest)) ([b], b.toNat)

/-- The encoder after the code of `string`, in front of the input `after`. -/
def next (e : Encoder) (string after : Bytes) : Encoder :=
  ⟨e.strings ++ (after.head?.map fun b => string ++ [b]).toList, e.written + 1⟩

/-- Whether the table is to be cleared in front of some input: `clears` may ask for that at any place,
and a full table leaves no choice. -/
def isDue (clears : Bytes → Bool) (e : Encoder) (input : Bytes) : Bool :=
  4096 ≤ e.size || clears input

/-- The clear mark in front of some input, if one is due. -/
def mark (early : Bool) (clears : Bytes → Bool) (e : Encoder) (input : Bytes) : List Bool :=
  if e.isDue clears input then e.write early clearCode else []

def cleared (clears : Bytes → Bool) (e : Encoder) (input : Bytes) : Encoder :=
  if e.isDue clears input then fresh else e

end Encoder

/-- The codes of the input, and the mark behind them. -/
def encodeFrom (early : Bool) (clears : Bytes → Bool) (e : Encoder) (input : Bytes) : List Bool :=
  let base := e.cleared clears input
  e.mark early clears input ++
    match input with
    | [] => base.write early endCode
    | b :: rest =>
      let found := base.longest b rest
      let after := rest.drop (found.1.length - 1)
      base.write early found.2 ++ encodeFrom early clears (base.next found.1 after) after
termination_by input.length
decreasing_by simp only [List.length_drop, List.length_cons]; omega

def encode (early : Bool) (clears : Bytes → Bool) (input : Bytes) : List Bool :=
  Encoder.fresh.write early clearCode ++ encodeFrom early clears .fresh input

namespace Encoder

/-! ## The longest match -/

/-- A string of the table that the input starts with. -/
structure Matches (e : Encoder) (input : Bytes) (found : Bytes × Nat) : Prop where
  string : e.string? found.2 = some found.1
  isPrefix : found.1 <+: input
  nonempty : found.1 ≠ []

variable {e : Encoder} {input : Bytes}

theorem matches_single (b : UInt8) (rest : Bytes) : e.Matches (b :: rest) ([b], b.toNat) where
  string := by
    have hbyte := UInt8.toNat_lt b
    simp [string?, hbyte]
  isPrefix := ⟨rest, rfl⟩
  nonempty := by simp

theorem matches_longer {best other : Bytes × Nat} (h : e.Matches input best)
    (hother : e.string? other.2 = some other.1) : e.Matches input (longer input best other) := by
  unfold longer
  split
  · rename_i hlonger
    simp only [Bool.and_eq_true, List.isPrefixOf_iff_prefix, decide_eq_true_eq] at hlonger
    refine ⟨hother, hlonger.1, ?_⟩
    intro hnil
    simp [hnil] at hlonger
  · exact h

theorem string?_of_mem_zipIdx {other : Bytes × Nat} (h : other ∈ e.strings.zipIdx 258) :
    e.string? other.2 = some other.1 := by
  obtain ⟨string, code⟩ := other
  have hget := List.mem_zipIdx_iff_le_and_getElem?_sub.mp h
  simp only [string?, Nat.not_lt.mpr hget.1, show ¬code < 256 by omega, if_false]
  exact hget.2

/-- A width is enough for all codes that the decoder knows, and for the next one. -/
theorem lt_two_pow_width {early : Bool} {code : Nat} (hcode : code ≤ e.known)
    (hlimit : e.known < 4096) : code < 2 ^ e.width early := by
  simp only [width]
  split <;> split <;> split <;> simp <;> omega

/-- A code in use is below the size. -/
theorem lt_size {code : Nat} {string : Bytes} (h : e.string? code = some string) :
    code < 256 ∨ 258 ≤ code ∧ code < e.size := by
  unfold string? at h
  split at h
  · exact .inl ‹_›
  split at h
  · cases h
  · have hlt := (List.getElem?_eq_some_iff.mp h).1
    refine .inr ⟨by omega, ?_⟩
    simp only [size]
    omega

/-- **What is written is a match**, so the input goes on behind it. -/
theorem longest_matches (e : Encoder) (b : UInt8) (rest : Bytes) :
    e.Matches (b :: rest) (e.longest b rest) := by
  suffices h : ∀ (others : List (Bytes × Nat)) (best : Bytes × Nat),
      (∀ other ∈ others, e.string? other.2 = some other.1) → e.Matches (b :: rest) best →
      e.Matches (b :: rest) (others.foldl (longer (b :: rest)) best) by
    exact h _ _ (fun other => string?_of_mem_zipIdx) (matches_single b rest)
  intro others
  induction others with
  | nil => exact fun _ _ hbest => hbest
  | cons other others ih =>
    intro best hothers hbest
    rw [List.forall_mem_cons] at hothers
    exact ih _ hothers.2 (matches_longer hbest hothers.1)

theorem length_le_longer (input : Bytes) (best other : Bytes × Nat) :
    best.1.length ≤ (longer input best other).1.length ∧
      (other.1 <+: input → other.1.length ≤ (longer input best other).1.length) := by
  unfold longer
  split
  · rename_i hlonger
    simp only [Bool.and_eq_true, decide_eq_true_eq] at hlonger
    exact ⟨Nat.le_of_lt hlonger.2, fun _ => Nat.le_refl _⟩
  · rename_i hshort
    refine ⟨Nat.le_refl _, fun hstarts => ?_⟩
    simp only [Bool.and_eq_true, List.isPrefixOf_iff_prefix, hstarts, true_and,
      decide_eq_true_eq, Nat.not_lt] at hshort
    exact hshort

/-- **No match is longer.** -/
theorem length_le_longest (e : Encoder) {b : UInt8} {rest string : Bytes} (hstring : string ∈ e.strings)
    (hstarts : string <+: b :: rest) : string.length ≤ (e.longest b rest).1.length := by
  suffices h : ∀ (others : List (Bytes × Nat)) (best : Bytes × Nat),
      best.1.length ≤ (others.foldl (longer (b :: rest)) best).1.length ∧
        ∀ other ∈ others, other.1 <+: b :: rest →
          other.1.length ≤ (others.foldl (longer (b :: rest)) best).1.length by
    obtain ⟨n, hn⟩ := List.getElem?_of_mem hstring
    have hmem : (string, 258 + n) ∈ e.strings.zipIdx 258 :=
      List.mem_zipIdx_iff_le_and_getElem?_sub.mpr ⟨by simp, by simpa using hn⟩
    exact (h _ _).2 _ hmem hstarts
  intro others
  induction others with
  | nil => simp
  | cons other others ih =>
    intro best
    have hlonger := length_le_longer (b :: rest) best other
    refine ⟨Nat.le_trans hlonger.1 (ih _).1, ?_⟩
    rw [List.forall_mem_cons]
    exact ⟨fun hother => Nat.le_trans (hlonger.2 hother) (ih _).1, (ih _).2⟩

end Encoder

/-! ## Reading a code -/

namespace State

/-- The bits that have been read and belong to no code yet. -/
structure Holds (s : State) (bits : List Bool) : Prop where
  pending : s.pending = Bits.value bits
  count : s.count = bits.length

/-- The state with other bits pending. -/
def holding (s : State) (bits : List Bool) : State :=
  { s with pending := Bits.value bits, count := bits.length }

theorem holds_holding (s : State) (bits : List Bool) : (s.holding bits).Holds bits := ⟨rfl, rfl⟩

variable {s : State} {bits left : List Bool} {b : UInt8} {early : Bool} {code : Nat}

theorem byte_short (h : s.Holds bits) (hshort : bits.length + 8 < s.width) :
    s.byte early b = .more (s.holding (bits ++ Bits.ofNat 8 b.toNat)) := by
  unfold byte
  dsimp only
  rw [h.pending, h.count, if_pos hshort, ← Bits.value_append_byte]
  simp [holding]

theorem byte_full (h : s.Holds bits) (hcode : code < 2 ^ s.width)
    (hbits : bits ++ Bits.ofNat 8 b.toNat = Bits.ofNat s.width code ++ left) :
    s.byte early b = (s.holding left).code early code := by
  have hlength := congrArg List.length hbits
  simp only [List.length_append, Bits.length_ofNat] at hlength
  have hlong : ¬bits.length + 8 < s.width := by omega
  have hleft : bits.length + 8 - s.width = left.length := by omega
  obtain ⟨hquotient, hremainder⟩ := Bits.value_split (Bits.ofNat s.width code) left
  rw [Bits.value_ofNat hcode] at hquotient
  unfold byte
  dsimp only
  rw [h.pending, h.count, if_neg hlong, hleft, ← Bits.value_append_byte, hbits, Nat.pow_eq,
    hquotient, hremainder]
  rfl

end State

/-- What a run comes to from where a code leads. -/
def resume (early : Bool) (data : Bytes) : Outcome → Except DecodeFault Bytes
  | .more s => run early s data
  | .done output => .ok output.toList
  | .fault code => .error (.invalidCode code)

theorem run_cons (early : Bool) (s : State) (b : UInt8) (rest : Bytes) :
    run early s (b :: rest) = resume early rest (s.byte early b) := by
  rw [run]
  cases s.byte early b <;> rfl

/-- **A code at the front of the bits is read**, and fewer than eight bits are pending behind it. -/
theorem run_code {early : Bool} {s : State} {bits tail : List Bool} {data : Bytes} {code : Nat}
    (h : s.Holds bits) (hfew : bits.length < s.width) (hcode : code < 2 ^ s.width)
    (hbits : bits ++ Bits.ofBytes data = Bits.ofNat s.width code ++ tail) :
    ∃ left rest, left ++ Bits.ofBytes rest = tail ∧ left.length < 8 ∧
      run early s data = resume early rest ((s.holding left).code early code) := by
  induction data generalizing s bits with
  | nil =>
    have hlength := congrArg List.length hbits
    simp only [Bits.ofBytes, List.flatMap_nil, List.append_nil, List.length_append,
      Bits.length_ofNat] at hlength
    omega
  | cons b data ih =>
    rw [Bits.ofBytes_cons, ← List.append_assoc] at hbits
    rw [run_cons]
    by_cases hshort : bits.length + 8 < s.width
    · rw [State.byte_short h hshort]
      refine ih (State.holds_holding s _) ?_ hcode hbits
      rw [List.length_append, Bits.length_ofNat]
      exact hshort
    · obtain ⟨left, hleft, htail⟩ : ∃ left, bits ++ Bits.ofNat 8 b.toNat =
          Bits.ofNat s.width code ++ left ∧ tail = left ++ Bits.ofBytes data := by
        refine List.append_eq_append_iff.mp hbits |>.elim (fun ⟨missing, hmissing, hdata⟩ => ?_) id
        -- The bits cannot end inside the code, as they are enough for it.
        have hlength := congrArg List.length hmissing
        simp only [List.length_append, Bits.length_ofNat] at hlength
        obtain rfl : missing = [] := List.eq_nil_of_length_eq_zero (by omega)
        rw [List.append_nil] at hmissing
        exact ⟨[], by rw [hmissing, List.append_nil], hdata.symm⟩
      have hlength := congrArg List.length hleft
      simp only [List.length_append, Bits.length_ofNat] at hlength
      refine ⟨left, data, htail.symm, by omega, ?_⟩
      rw [State.byte_full h hcode hleft]

/-! ## Following the encoder -/

/-- The decoder `s` knows what the encoder `e` has written in front of the input `input`: both have
nothing, or the decoder has a code whose string only waits for the next byte of the input. -/
inductive Follows (early : Bool) (input : Bytes) (s : State) : Encoder → Prop where
  | fresh (htable : s.table.toList = initialTable.toList) (hprevious : s.previous = none)
      (hwidth : s.width = codeWidth early 258) : Follows early input s .fresh
  | behind {strings : List Bytes} {previous : Nat} {string : Bytes}
      (htable : s.table.toList = initialTable.toList ++ strings)
      (hprevious : s.previous = some previous) (hentry : s.table[previous]? = some string)
      (hstring : string ≠ []) (hwidth : s.width = codeWidth early (258 + strings.length)) :
      Follows early input s
        ⟨strings ++ (input.head?.map fun b => string ++ [b]).toList, strings.length + 1⟩

theorem initialTable_length : initialTable.toList.length = 258 := by simp [initialTable]

/-- What the decoder has in its table is what the encoder has under the same code. -/
theorem table_of_string? {table : Array Bytes} {e : Encoder} {code : Nat} {string : Bytes}
    (htable : table.toList = initialTable.toList ++ e.strings) (h : e.string? code = some string) :
    table[code]? = some string := by
  have hcode := Encoder.lt_size h
  rw [← Array.getElem?_toList, htable]
  rcases hcode with hcode | ⟨hcode, -⟩
  · rw [List.getElem?_append_left (by rw [initialTable_length]; omega)]
    simp only [Encoder.string?, hcode, if_true, Option.some.injEq] at h
    subst h
    simp only [initialTable, Array.toList_append]
    rw [List.getElem?_append_left (by simpa using hcode)]
    simp [hcode]
  · simp only [Encoder.string?, show ¬code < 256 by omega, show ¬code < 258 by omega, if_false] at h
    rw [List.getElem?_append_right (by rw [initialTable_length]; omega), initialTable_length, h]

theorem State.entry_eq {s : State} {code : Nat} {string : Bytes} (h : s.table[code]? = some string) :
    s.entry code = string := by
  simp [State.entry, h]

theorem lookup?_known {s : State} {e : Encoder} {code : Nat} {string : Bytes}
    (htable : s.table.toList = initialTable.toList ++ e.strings) (h : e.string? code = some string) :
    s.lookup? code = some string := by
  have hget := table_of_string? htable h
  have hlt := (Array.getElem?_eq_some_iff.mp hget).1
  rw [State.lookup?, if_pos hlt, State.entry_eq hget]

theorem Encoder.width_eq (early : Bool) (e : Encoder) : e.width early = codeWidth early e.known := by
  unfold Encoder.width codeWidth
  cases early <;>
    simp only [Bool.toNat_false, Bool.toNat_true, Bool.false_eq_true, if_true, if_false] <;> grind

/-- A code is one of those in front of the last string, or that of the last string. -/
theorem Encoder.string?_snoc {strings : List Bytes} {last string : Bytes} {written code : Nat}
    (h : Encoder.string? ⟨strings ++ [last], written⟩ code = some string) :
    Encoder.string? ⟨strings, written⟩ code = some string ∨
      code = 258 + strings.length ∧ string = last := by
  have hcode := Encoder.lt_size h
  simp only [Encoder.size, List.length_append, List.length_singleton] at hcode
  by_cases hlast : code = 258 + strings.length
  · right
    subst hlast
    simpa [Encoder.string?, show ¬258 + strings.length < 256 by omega, eq_comm] using h
  · left
    unfold Encoder.string? at h ⊢
    split
    · rwa [if_pos ‹_›] at h
    · rw [if_neg ‹_›, if_neg (by omega)] at h
      rw [if_neg (by omega), ← h, List.getElem?_append_left (by omega)]

/-- The state behind a clear mark. -/
def State.cleared (s : State) : State :=
  { s with table := s.table.extract 0 258, width := 9, previous := none }

namespace Follows

variable {early : Bool} {clears : Bytes → Bool} {input rest string : Bytes} {b : UInt8} {code : Nat}
  {s : State} {e : Encoder}

theorem holding (h : Follows early input s e) (bits : List Bool) :
    Follows early input (s.holding bits) e := by
  cases h with
  | fresh htable hprevious hwidth => exact .fresh htable hprevious hwidth
  | behind htable hprevious hentry hstring hwidth =>
    exact .behind htable hprevious hentry hstring hwidth

theorem width_eq (h : Follows early input s e) : s.width = e.width early := by
  rw [Encoder.width_eq]
  cases h with
  | fresh _ _ hwidth => exact hwidth
  | behind _ _ _ _ hwidth => exact hwidth

theorem nine_le_width (h : Follows early input s e) : 9 ≤ s.width := by
  rw [h.width_eq]
  simp only [Encoder.width]
  omega

/-- In front of more input the encoder has added a string with each code. -/
theorem written_eq (h : Follows early (b :: rest) s e) : e.written = e.strings.length := by
  cases h with
  | fresh => rfl
  | behind => simp

/-- A code fits the width that is due. -/
theorem code_lt (h : Follows early (b :: rest) s e) (hroom : e.size < 4096)
    (hstring : e.string? code = some string) : code < 2 ^ s.width := by
  have hcode := Encoder.lt_size hstring
  have hwritten := h.written_eq
  have hknown : code ≤ e.known ∧ e.known < 4096 := by
    simp only [Encoder.size, Encoder.known] at *
    omega
  rw [h.width_eq]
  exact Encoder.lt_two_pow_width hknown.1 hknown.2

theorem mark_lt (h : Follows early input s e) (hcode : code < 512) : code < 2 ^ s.width := by
  have hpow := Nat.pow_le_pow_right Nat.two_pos h.nine_le_width
  omega

/-- **The decoder finds the string of a code**, also that of the last one, which it does not have yet:
the string before it goes on with the byte that it begins with. -/
theorem lookup?_eq (h : Follows early (b :: rest) s e) (hfound : e.Matches (b :: rest) (string, code)) :
    s.lookup? code = some string := by
  cases h with
  | fresh htable =>
    apply lookup?_known _ hfound.string
    rw [htable, Encoder.fresh, List.append_nil]
  | @behind strings previous string' htable hprevious hentry hstring =>
    rcases Encoder.string?_snoc hfound.string with hknown | ⟨hcode, hlast⟩
    · exact lookup?_known (e := ⟨strings, 0⟩) htable hknown
    · obtain ⟨c, tail, rfl⟩ := List.exists_cons_of_ne_nil hstring
      dsimp only at hcode hlast
      subst hlast
      obtain rfl : c = b := (List.cons_prefix_cons.mp hfound.isPrefix).1
      have hsize : code = s.table.size := by
        rw [hcode, ← Array.length_toList, htable, List.length_append, initialTable_length]
      rw [State.lookup?, if_neg (by omega), hprevious]
      simp only [hsize, if_true, State.entry_eq hentry]
      rfl

/-- Behind a code the decoder knows all strings that the encoder had in front of it. -/
theorem learns (h : Follows early (b :: rest) s e) (hfound : e.Matches (b :: rest) (string, code)) :
    (s.emit early code string).table.toList = initialTable.toList ++ e.strings := by
  have hfirst : string.take 1 = [b] := by
    obtain ⟨c, string', rfl⟩ := List.exists_cons_of_ne_nil hfound.nonempty
    have hcons := List.cons_prefix_cons.mp hfound.isPrefix
    simp [hcons.1]
  cases h with
  | fresh htable hprevious => simp [State.emit, hprevious, htable, Encoder.fresh]
  | behind htable hprevious hentry =>
    simp [State.emit, hprevious, htable, hfirst, State.entry_eq hentry]

/-- **A code is read as the string it was written for.** -/
theorem next (h : Follows early (b :: rest) s e) (hfound : e.Matches (b :: rest) (string, code))
    (after : Bytes) :
    s.code early code = .more (s.emit early code string) ∧
      Follows early after (s.emit early code string) (e.next string after) := by
  have hknown := h.learns hfound
  constructor
  · have hinUse := Encoder.lt_size hfound.string
    have hclear : code ≠ clearCode := by simp only [clearCode]; omega
    have hend : code ≠ endCode := by simp only [endCode]; omega
    simp only [State.code, hclear, hend, if_false, h.lookup?_eq hfound]
  · have hentry := table_of_string? hknown hfound.string
    have hsize : (s.emit early code string).table.size = 258 + e.strings.length := by
      rw [← Array.length_toList, hknown, List.length_append, initialTable_length]
    have hwidth : (s.emit early code string).width = codeWidth early (258 + e.strings.length) := by
      rw [← hsize]
      rfl
    rw [Encoder.next, h.written_eq]
    exact .behind hknown rfl hentry hfound.nonempty hwidth

/-- **A clear mark takes both back to the start.** -/
theorem clear (h : Follows early input s e) :
    s.code early clearCode = .more s.cleared ∧ Follows early input s.cleared .fresh := by
  constructor
  · simp [State.code, State.cleared]
  · refine .fresh ?_ rfl (by cases early <;> rfl)
    have htable : ∃ strings, s.table.toList = initialTable.toList ++ strings := by
      cases h with
      | fresh htable => exact ⟨[], by rw [htable, List.append_nil]⟩
      | behind htable => exact ⟨_, htable⟩
    obtain ⟨strings, htable⟩ := htable
    rw [State.cleared, Array.toList_extract, htable, List.extract_eq_take_drop, List.drop_zero]
    exact List.take_left' initialTable_length

end Follows

/-! ## Reading what the encoder writes -/

/-- The decoder stands in front of the bits `stream`, where the encoder `e` goes on with `input`. -/
structure Before (early : Bool) (e : Encoder) (input : Bytes) (stream : List Bool) (s : State)
    (data : Bytes) : Prop where
  follows : Follows early input s e
  bits : ∃ bits, s.Holds bits ∧ bits.length < 8 ∧ bits ++ Bits.ofBytes data = stream

namespace Before

variable {early : Bool} {clears : Bytes → Bool} {e : Encoder} {input rest string data : Bytes}
  {b : UInt8} {code : Nat} {stream : List Bool} {s : State}

theorem read (h : Before early e input (e.write early code ++ stream) s data)
    (hcode : code < 2 ^ s.width) :
    ∃ left data', left.length < 8 ∧ left ++ Bits.ofBytes data' = stream ∧
      run early s data = resume early data' ((s.holding left).code early code) := by
  obtain ⟨bits, hholds, hfew, hbits⟩ := h.bits
  have hwide := h.follows.nine_le_width
  rw [Encoder.write, ← h.follows.width_eq] at hbits
  obtain ⟨left, data', hleft, hshort, hrun⟩ := run_code hholds (by omega) hcode hbits
  exact ⟨left, data', hshort, hleft, hrun⟩

theorem clear (h : Before early e input (e.write early clearCode ++ stream) s data) :
    ∃ s' data', Before early .fresh input stream s' data' ∧ s'.output = s.output ∧
      run early s data = run early s' data' := by
  obtain ⟨left, data', hshort, hleft, hrun⟩ := h.read (h.follows.mark_lt (by simp [clearCode]))
  obtain ⟨hcode, hfollows⟩ := (h.follows.holding left).clear
  refine ⟨_, data', ⟨hfollows, left, ⟨rfl, rfl⟩, hshort, hleft⟩, rfl, ?_⟩
  rw [hrun, hcode]
  rfl

theorem mark (clears : Bytes → Bool)
    (h : Before early e input (e.mark early clears input ++ stream) s data) :
    ∃ s' data', Before early (e.cleared clears input) input stream s' data' ∧
      s'.output = s.output ∧ run early s data = run early s' data' := by
  unfold Encoder.mark at h
  unfold Encoder.cleared
  split at h
  · simp only [*, if_true]
    exact h.clear
  · simp only [*]
    exact ⟨s, data, h, rfl, rfl⟩

theorem found {found : Bytes × Nat}
    (h : Before early e (b :: rest) (e.write early found.2 ++ stream) s data)
    (hroom : e.size < 4096) (hfound : e.Matches (b :: rest) found) (after : Bytes) :
    ∃ s' data', Before early (e.next found.1 after) after stream s' data' ∧
      s'.output.toList = s.output.toList ++ found.1 ∧ run early s data = run early s' data' := by
  obtain ⟨left, data', hshort, hleft, hrun⟩ := h.read (h.follows.code_lt hroom hfound.string)
  obtain ⟨hcode, hfollows⟩ := (h.follows.holding left).next hfound after
  refine ⟨_, data', ⟨hfollows, left, ⟨rfl, rfl⟩, hshort, hleft⟩, ?_, by rw [hrun, hcode]; rfl⟩
  simp [State.emit, State.holding]

theorem stop (h : Before early e input (e.write early endCode ++ stream) s data) :
    run early s data = .ok s.output.toList := by
  obtain ⟨left, data', -, -, hrun⟩ := h.read (h.follows.mark_lt (by simp [endCode]))
  rw [hrun]
  rfl

end Before

theorem Encoder.size_cleared_lt (clears : Bytes → Bool) (e : Encoder) (input : Bytes) :
    (e.cleared clears input).size < 4096 := by
  unfold Encoder.cleared
  split
  · simp [Encoder.size, Encoder.fresh]
  · rename_i hdue
    simp only [Encoder.isDue, Bool.or_eq_true, decide_eq_true_eq, not_or] at hdue
    omega

/-- What is left to write begins behind the match. -/
theorem Encoder.Matches.append_drop {e : Encoder} {b : UInt8} {rest : Bytes} {found : Bytes × Nat}
    (h : e.Matches (b :: rest) found) : found.1 ++ rest.drop (found.1.length - 1) = b :: rest := by
  obtain ⟨c, string, hcons⟩ := List.exists_cons_of_ne_nil h.nonempty
  obtain ⟨after, hafter⟩ := h.isPrefix
  rw [hcons, List.cons_append, List.cons.injEq] at hafter
  obtain ⟨rfl, rfl⟩ := hafter
  simp [hcons]

/-- A run over what the encoder writes ends at the mark, with the input behind what was there. -/
theorem run_encodeFrom (early : Bool) (clears : Bytes → Bool) (after : List Bool) (e : Encoder)
    (input : Bytes) (s : State) (data : Bytes)
    (h : Before early e input (encodeFrom early clears e input ++ after) s data) :
    run early s data = .ok (s.output.toList ++ input) := by
  induction hlength : input.length using Nat.strongRecOn generalizing e input s data with
  | ind length ih => ?_
  rw [encodeFrom.eq_def, List.append_assoc] at h
  obtain ⟨s₁, data₁, h₁, houtput₁, hrun₁⟩ := h.mark clears
  rw [hrun₁, ← houtput₁]
  cases input with
  | nil => rw [h₁.stop, List.append_nil]
  | cons b rest =>
    rw [List.append_assoc] at h₁
    have hfound := (e.cleared clears (b :: rest)).longest_matches b rest
    obtain ⟨s₂, data₂, h₂, houtput₂, hrun₂⟩ := h₁.found (e.size_cleared_lt clears _) hfound _
    have hshorter : (rest.drop (((e.cleared clears (b :: rest)).longest b rest).1.length - 1)).length <
        length := by
      rw [← hlength, List.length_drop, List.length_cons]
      omega
    rw [hrun₂, ih _ hshorter _ _ s₂ data₂ h₂ rfl, houtput₂, List.append_assoc, hfound.append_drop]

theorem before_initial {early : Bool} {input data : Bytes} {stream : List Bool}
    (h : Bits.ofBytes data = stream) : Before early .fresh input stream .initial data where
  follows := .fresh rfl rfl (by cases early <;> rfl)
  bits := ⟨[], ⟨rfl, rfl⟩, by simp, h⟩

/-- **Decoding gives back what was encoded**, with whatever bits behind the mark that ends it, and
wherever the encoder clears its table before it has to. -/
theorem decode_encode (early : Bool) (clears : Bytes → Bool) (input : Bytes) (after : List Bool) :
    decode early (Bits.pack (encode early clears input ++ after)) = .ok input := by
  obtain ⟨room, hroom⟩ := Bits.ofBytes_pack (encode early clears input ++ after)
  rw [encode, List.append_assoc, List.append_assoc] at hroom
  have hbefore : Before early .fresh input _ .initial _ := before_initial hroom
  obtain ⟨s, data, hclear, houtput, hrun⟩ := hbefore.clear
  rw [List.append_assoc] at hclear
  rw [decode, encode, List.append_assoc, hrun, run_encodeFrom early clears _ _ _ s data hclear,
    houtput]
  rfl

example : Bits.pack (encode true (fun _ => false) [45, 45, 45, 45, 45, 65, 45, 45, 45, 66]) =
    [0x80, 0x0B, 0x60, 0x50, 0x22, 0x0C, 0x0C, 0x85, 0x01] := by cbv

end PdfScene.Lzw
