import Mathlib
import PdfScene.Proofs.Filter.LzwSound

/-!
# LZWDecode with checks

Data that no encoder wrote is decoded, or refused for a code that stands for nothing, and no step of that
is undefined. To say so, `Machine` decodes with a word of 32 bits that drops what is shifted out at its
top, and checks each look into the table, each shift and each difference; where one is out of range it has
no result. It always has one, and that is what `decode` gives (`decode_inRange`).
-/

set_option autoImplicit false

namespace PdfScene.Lzw

/-- The decoder with its bits in a word of 32, where those of codes that have been read stay until they
are shifted out at the top. -/
structure Machine where
  table : Array Bytes
  width : Nat
  word : UInt32
  count : Nat
  previous : Option Nat
  output : Array UInt8

namespace Machine

def initial : Machine := ⟨initialTable, 9, 0, 0, none, #[]⟩

/-- A difference, unless it were negative. -/
def sub? (a b : Nat) : Option Nat := if b ≤ a then some (a - b) else none

/-- A shift by fewer bits than a word has. -/
def shiftLeft? (word : UInt32) (n : Nat) : Option UInt32 :=
  if n < 32 then some (word <<< UInt32.ofNat n) else none

def shiftRight? (word : UInt32) (n : Nat) : Option UInt32 :=
  if n < 32 then some (word >>> UInt32.ofNat n) else none

def load (m : Machine) (b : UInt8) : Machine :=
  { m with word := m.word <<< 8 ||| b.toUInt32, count := m.count + 8 }

/-- Takes a code off the front of the pending bits. -/
def take? (m : Machine) : Option (Nat × Machine) := do
  let left ← sub? m.count m.width
  let bits ← shiftRight? m.word left
  let limit ← shiftLeft? 1 m.width
  let mask ← sub? limit.toNat 1
  return (bits.toNat &&& mask, { m with count := left })

/-- The string of a code, if it has one. -/
def string? (m : Machine) (code : Nat) : Option (Option Bytes) :=
  if code < m.table.size then do
    let string ← m.table[code]?
    return some string
  else
    match m.previous with
    | some previous =>
      if code = m.table.size then do
        let string ← m.table[previous]?
        let first ← string.head?
        return some (string ++ [first])
      else return none
    | none => return none

/-- The table with the string that `string` completes. -/
def add? (m : Machine) (string : Bytes) : Option (Array Bytes) :=
  match m.previous with
  | some previous => do
    let before ← m.table[previous]?
    let first ← string.head?
    return m.table.push (before ++ [first])
  | none => return m.table

def emit? (early : Bool) (m : Machine) (code : Nat) (string : Bytes) : Option Machine := do
  let table ← m.add? string
  return { m with
    table
    width := codeWidth early table.size
    previous := some code
    output := m.output ++ string.toArray }

/-- The machine behind a code, or what decoding comes to if it ends there. -/
def read? (early : Bool) (m : Machine) (code : Nat) : Option (Machine ⊕ Except DecodeFault Bytes) :=
  if code = clearCode then
    return .inl { m with table := m.table.extract 0 258, width := 9, previous := none }
  else if code = endCode then return .inr (.ok m.output.toList)
  else do
    match ← m.string? code with
    | some string => return .inl (← m.emit? early code string)
    | none => return .inr (.error (.invalidCode code))

/-- Reads data as long as there is any, and codes as long as there are bits for one. Each code has to
take bits, so that there is an end to that. -/
def run (early : Bool) (m : Machine) (data : Bytes) : Option (Except DecodeFault Bytes) :=
  if m.count < m.width then
    match data with
    | [] => some (.ok m.output.toList)
    | b :: rest => run early (m.load b) rest
  else
    match m.take?.bind fun (code, m') => m'.read? early code with
    | some (.inl m') => if m'.count < m.count then run early m' data else none
    | some (.inr result) => some result
    | none => none
termination_by (data.length, m.count)

/-- Whether the next code is the first at all, or the first behind a clear mark. The codes before it are
given, the last one first. -/
def isFirst (codes : List Nat) : Bool := codes.head?.all (· == clearCode)

/-- Where a run over `data` comes by: the machine, the data in front of it, and the codes behind it, the
last one first. -/
inductive Reached (early : Bool) (data : Bytes) : Machine → Bytes → List Nat → Prop where
  | start : Reached early data .initial data []
  | load {m : Machine} {b : UInt8} {rest : Bytes} {codes : List Nat}
      (h : Reached early data m (b :: rest) codes) (hshort : m.count < m.width) :
      Reached early data (m.load b) rest codes
  | code {m taken m' : Machine} {rest : Bytes} {codes : List Nat} {code : Nat}
      (h : Reached early data m rest codes) (hfull : m.width ≤ m.count)
      (htake : m.take? = some (code, taken)) (hread : taken.read? early code = some (.inl m')) :
      Reached early data m' rest (code :: codes)

/-! ### The word holds the pending bits -/

/-- What the machine knows, with the bits that belong to no code yet. -/
def state (m : Machine) : State :=
  ⟨m.table, m.width, m.word.toNat % 2 ^ m.count, m.count, m.previous, m.output⟩

variable {early : Bool} {data rest : Bytes} {codes : List Nat} {m : Machine}

/-- A byte behind the lowest bits of a number. -/
theorem mod_two_pow_add_byte (n : Nat) (b : UInt8) (count : Nat) :
    (n * 2 ^ 8 + b.toNat) % 2 ^ (count + 8) = n % 2 ^ count * 256 + b.toNat := by
  have hb : b.toNat < 2 ^ 8 := UInt8.toNat_lt b
  rw [Nat.pow_add, Nat.mul_comm (2 ^ count), Nat.mod_mul, Nat.mul_add_mod_self_right,
    Nat.mod_eq_of_lt hb, Nat.add_comm (n * 2 ^ 8), Nat.add_mul_div_right _ _ (Nat.two_pow_pos 8),
    Nat.div_eq_of_lt hb, Nat.zero_add]
  omega

/-- Nothing that is still pending is shifted out. -/
theorem state_load (hcount : m.count ≤ 24) (b : UInt8) :
    (m.load b).state =
      { m.state with pending := m.state.pending * 256 + b.toNat, count := m.count + 8 } := by
  have hword : (m.word <<< 8 ||| b.toUInt32).toNat = m.word.toNat % 2 ^ 24 * 2 ^ 8 + b.toNat := by
    have hb : b.toNat < 2 ^ 8 := UInt8.toNat_lt b
    rw [UInt32.toNat_or, UInt32.toNat_shiftLeft, UInt8.toNat_toUInt32]
    show m.word.toNat <<< 8 % 2 ^ 32 ||| b.toNat = _
    rw [Nat.shiftLeft_eq, show 2 ^ 32 = 2 ^ 24 * 2 ^ 8 by decide, Nat.mul_mod_mul_right,
      ← Nat.shiftLeft_eq, Nat.shiftLeft_add_eq_or_of_lt hb]
  have hpending : (m.load b).word.toNat % 2 ^ (m.count + 8) =
      m.word.toNat % 2 ^ m.count * 256 + b.toNat := by
    rw [load, hword, mod_two_pow_add_byte, Nat.mod_mod_of_dvd _ (Nat.pow_dvd_pow 2 hcount)]
  show (⟨m.table, m.width, _, _, m.previous, m.output⟩ : State) = _
  rw [show (m.load b).count = m.count + 8 from rfl, hpending]
  rfl

theorem sub?_eq {a b : Nat} (h : b ≤ a) : sub? a b = some (a - b) := if_pos h

theorem toNat_ofNat_shift {n : Nat} (h : n < 32) : (UInt32.ofNat n).toNat % 32 = n := by
  have hsize : n < 2 ^ 32 := Nat.lt_trans h (by decide)
  rw [UInt32.toNat_ofNat_of_lt' hsize, Nat.mod_eq_of_lt h]

theorem exists_shiftRight? (word : UInt32) {n : Nat} (h : n < 32) :
    ∃ bits, shiftRight? word n = some bits ∧ bits.toNat = word.toNat / 2 ^ n := by
  refine ⟨_, if_pos h, ?_⟩
  rw [UInt32.toNat_shiftRight, toNat_ofNat_shift h, Nat.shiftRight_eq_div_pow]

theorem exists_shiftLeft?_one {n : Nat} (h : n < 32) :
    ∃ limit, shiftLeft? 1 n = some limit ∧ limit.toNat = 2 ^ n := by
  have hpow : 2 ^ n < 2 ^ 32 := Nat.pow_lt_pow_right (Nat.lt_succ_self 1) h
  refine ⟨_, if_pos h, ?_⟩
  rw [UInt32.toNat_shiftLeft, toNat_ofNat_shift h, Nat.shiftLeft_eq]
  show 1 * 2 ^ n % 2 ^ 32 = _
  rw [Nat.one_mul, Nat.mod_eq_of_lt hpow]

/-- The code at the front of the pending bits. -/
def front (m : Machine) : Nat := m.state.pending / 2 ^ (m.count - m.width)

/-- The machine without it. -/
def behind (m : Machine) : Machine := { m with count := m.count - m.width }

/-- **No shift and no difference is out of range when a code is taken.** -/
theorem take?_eq (hwidth : m.width ≤ m.count) (hcount : m.count < 32) :
    m.take? = some (m.front, m.behind) := by
  obtain ⟨bits, hright, hbits⟩ := exists_shiftRight? m.word (show m.count - m.width < 32 by omega)
  obtain ⟨limit, hlimit, hpow⟩ := exists_shiftLeft?_one (show m.width < 32 by omega)
  have hfront : m.word.toNat / 2 ^ (m.count - m.width) % 2 ^ m.width = m.front := by
    show _ = m.word.toNat % 2 ^ m.count / 2 ^ (m.count - m.width)
    rw [← Nat.mod_mul_right_div_self, ← Nat.pow_add, Nat.sub_add_cancel hwidth]
  rw [take?, sub?_eq hwidth]
  show (shiftRight? m.word (m.count - m.width)).bind _ = _
  rw [hright]
  show (shiftLeft? 1 m.width).bind _ = _
  rw [hlimit]
  show (sub? limit.toNat 1).bind _ = _
  rw [hpow, sub?_eq Nat.one_le_two_pow]
  show some (bits.toNat &&& (2 ^ m.width - 1), m.behind) = _
  rw [hbits, Nat.and_two_pow_sub_one_eq_mod, hfront]

/-- What is left of the bits is what `State.byte` leaves. -/
theorem state_behind (m : Machine) :
    m.behind.state = { m.state with
      pending := m.state.pending % 2 ^ (m.count - m.width), count := m.count - m.width } := by
  have hpending : m.word.toNat % 2 ^ m.count % 2 ^ (m.count - m.width) =
      m.word.toNat % 2 ^ (m.count - m.width) :=
    Nat.mod_mod_of_dvd _ (Nat.pow_dvd_pow 2 (Nat.sub_le _ _))
  show (⟨m.table, m.width, _, _, m.previous, m.output⟩ : State) =
    ⟨m.table, m.width, m.word.toNat % 2 ^ m.count % _, _, m.previous, m.output⟩
  rw [hpending]
  rfl

theorem behind_sound (h : m.state.Sound) : m.behind.state.Sound := by
  rw [state_behind]
  exact h.withBits _ _

/-- **A byte is taken in as it is by the decoder**, which looks for one code and not for several. -/
theorem byte_state (early : Bool) (hcount : m.count ≤ 24) (b : UInt8) :
    m.state.byte early b =
      if (m.load b).count < (m.load b).width then .more (m.load b).state
      else (m.load b).behind.state.code early (m.load b).front := by
  have hload := state_load hcount b
  rw [State.byte]
  show (if m.count + 8 < m.width then _ else _) = if m.count + 8 < m.width then _ else _
  by_cases hshort : m.count + 8 < m.width
  · rw [if_pos hshort, if_pos hshort, hload]
    rfl
  · rw [if_neg hshort, if_neg hshort, state_behind, front, hload]
    rfl

/-! ### Every string that is looked for is there -/

/-- The code before stands for a string that is not empty. -/
theorem previous_string (h : m.state.Sound) {previous : Nat} (hprevious : m.previous = some previous) :
    ∃ first rest, m.table[previous]? = some (first :: rest) ∧
      m.state.entry previous = first :: rest := by
  have hlt : previous < m.table.size := (h.previous_lt previous hprevious).1
  have hget : m.table[previous]? = some m.table[previous] := Array.getElem?_eq_getElem hlt
  have hentry : m.state.entry previous = m.table[previous] := State.entry_eq hget
  obtain ⟨first, rest, hcons⟩ := List.exists_cons_of_ne_nil (h.entry_previous_ne_nil hprevious)
  exact ⟨first, rest, by rw [hget, ← hentry, hcons], hcons⟩

theorem string?_eq (h : m.state.Sound) (code : Nat) : m.string? code = some (m.state.lookup? code) := by
  unfold string? State.lookup?
  by_cases hlt : code < m.table.size
  · have hget : m.table[code]? = some m.table[code] := Array.getElem?_eq_getElem hlt
    rw [if_pos hlt, if_pos (show code < m.state.table.size from hlt), hget, State.entry_eq hget]
    rfl
  rw [if_neg hlt, if_neg (show ¬code < m.state.table.size from hlt)]
  show _ = some (match m.previous with | some previous => _ | none => _)
  cases hprevious : m.previous with
  | none => rfl
  | some previous =>
    obtain ⟨first, rest, hget, hentry⟩ := previous_string h hprevious
    by_cases hcode : code = m.table.size
    · simp only [if_pos hcode, hget, hentry]
      rw [if_pos (show code = m.state.table.size from hcode)]
      rfl
    · simp only [if_neg hcode]
      rw [if_neg (show ¬code = m.state.table.size from hcode)]
      rfl

theorem add?_eq (h : m.state.Sound) {string : Bytes} (hstring : string ≠ []) (early : Bool)
    (code : Nat) : m.add? string = some (m.state.emit early code string).table := by
  obtain ⟨head, tail, rfl⟩ := List.exists_cons_of_ne_nil hstring
  rw [State.emit_table]
  show m.add? _ = some (match m.previous with | some previous => _ | none => _)
  unfold add?
  cases hprevious : m.previous with
  | none => rfl
  | some previous =>
    obtain ⟨first, rest, hget, hentry⟩ := previous_string h hprevious
    simp only [hget, hentry]
    rfl

end Machine

namespace Outcome

variable {o : Outcome}

/-- The state behind a code, or what decoding comes to if it ends there. -/
def settle : Outcome → State ⊕ Except DecodeFault Bytes
  | more s => .inl s
  | done output => .inr (.ok output.toList)
  | fault code => .inr (.error (.invalidCode code))

theorem settle_eq_inl_iff {s : State} : o.settle = .inl s ↔ o = .more s := by
  cases o <;> simp [settle]

theorem settle_eq_error_iff {fault : DecodeFault} :
    o.settle = .inr (.error fault) ↔ ∃ code, o = .fault code ∧ fault = .invalidCode code := by
  cases o <;> simp [settle, eq_comm]

theorem resume_of_settle_inl {s : State} (h : o.settle = .inl s) (early : Bool) (data : Bytes) :
    resume early data o = Lzw.run early s data := by
  rw [settle_eq_inl_iff.mp h]
  rfl

theorem resume_of_settle_inr {result : Except DecodeFault Bytes} (h : o.settle = .inr result)
    (early : Bool) (data : Bytes) : resume early data o = result := by
  cases o <;> cases h <;> rfl

end Outcome

namespace Machine

variable {early : Bool} {data rest : Bytes} {codes : List Nat} {m : Machine}

/-- A code with a string is written and added. -/
theorem read?_of_string? {code : Nat} {string : Bytes} (hclear : code ≠ clearCode)
    (hend : code ≠ endCode) (h : m.string? code = some (some string)) :
    m.read? early code = (m.emit? early code string).map .inl := by
  rw [read?, if_neg hclear, if_neg hend, h]
  show (m.emit? early code string).bind _ = _
  cases m.emit? early code string <;> rfl

/-- **With what holds between codes, no look into the table is out of range when one is read.** -/
theorem read?_eq (h : m.state.Sound) (early : Bool) (code : Nat) :
    ∃ r, m.read? early code = some r ∧ r.map state id = (m.state.code early code).settle := by
  by_cases hclear : code = clearCode
  · rw [read?, State.code, if_pos hclear, if_pos hclear]
    exact ⟨_, rfl, rfl⟩
  by_cases hend : code = endCode
  · rw [read?, State.code, if_neg hclear, if_neg hclear, if_pos hend, if_pos hend]
    exact ⟨_, rfl, rfl⟩
  have hstring := string?_eq h code
  rw [State.code, if_neg hclear, if_neg hend]
  cases hfound : m.state.lookup? code with
  | none =>
    rw [hfound] at hstring
    rw [read?, if_neg hclear, if_neg hend, hstring]
    exact ⟨_, rfl, rfl⟩
  | some string =>
    rw [hfound] at hstring
    have hadd := add?_eq h (h.lookup? hclear hend hfound).1 early code
    rw [read?_of_string? hclear hend hstring, emit?, hadd]
    exact ⟨_, rfl, rfl⟩

theorem code_of_read? {m' : Machine} {code : Nat} (h : m.state.Sound)
    (hread : m.read? early code = some (.inl m')) : m.state.code early code = .more m'.state := by
  obtain ⟨r, hr, hsettle⟩ := read?_eq h early code
  cases hread.symm.trans hr
  exact Outcome.settle_eq_inl_iff.mp hsettle.symm

/-- A code is refused for one reason only. -/
theorem read?_eq_error_iff (h : m.state.Sound) {code : Nat} {fault : DecodeFault} :
    m.read? early code = some (.inr (.error fault)) ↔
      fault = .invalidCode code ∧ (m.table.size < code ∨ m.previous = none ∧ 258 ≤ code) := by
  obtain ⟨r, hread, hsettle⟩ := read?_eq h early code
  rw [hread, Option.some.injEq]
  constructor
  · rintro rfl
    obtain ⟨number, hcode, rfl⟩ := Outcome.settle_eq_error_iff.mp hsettle.symm
    obtain ⟨rfl, hbeyond⟩ := h.code_eq_fault_iff.mp hcode
    exact ⟨rfl, hbeyond⟩
  · rintro ⟨rfl, hbeyond⟩
    have hcode : m.state.code early code = .fault code := h.code_eq_fault_iff.mpr ⟨rfl, hbeyond⟩
    rw [hcode] at hsettle
    cases r with
    | inl m' => cases hsettle
    | inr result => exact congrArg Sum.inr (Sum.inr.inj hsettle)

/-! ### The run -/

/-- Fewer bits are left behind a code than the next one takes. -/
theorem count_lt_of_read? {m' : Machine} {code : Nat} (h : m.state.Sound)
    (hcount : m.count < m.width + 8) (hread : m.behind.read? early code = some (.inl m')) :
    m'.count = m.count - m.width ∧ m'.count < m'.width ∧ m'.state.Sound := by
  have hmore := code_of_read? (behind_sound h) hread
  have hsound := (behind_sound h).next hmore
  have hleft : m'.count = m.count - m.width := (State.code_more hmore).1
  have hwidth : 9 ≤ m'.width := hsound.le_width
  exact ⟨hleft, by omega, hsound⟩

/-- The codes in front of a byte are one at most. -/
theorem run_full (h : m.state.Sound) (hfull : m.width ≤ m.count) (hcount : m.count < m.width + 8)
    (early : Bool) (data : Bytes) :
    run early m data = match m.behind.read? early m.front with
      | some (.inl m') => run early m' data
      | some (.inr result) => some result
      | none => none := by
  have hwidth : 9 ≤ m.width := h.le_width
  have hwidth' : m.width ≤ 12 := h.width_le
  rw [run.eq_def, if_neg (Nat.not_lt.mpr hfull), take?_eq hfull (by omega), Option.bind_some]
  dsimp only
  cases hread : m.behind.read? early m.front with
  | none => rfl
  | some r =>
    cases r with
    | inr result => rfl
    | inl m' =>
      have hleft := (count_lt_of_read? h hcount hread).1
      exact if_pos (by omega)

theorem load_sound (h : m.state.Sound) (hcount : m.count ≤ 24) (b : UInt8) :
    (m.load b).state.Sound := by
  rw [state_load hcount]
  exact h.withBits _ _

/-- **Nothing is out of range, and what comes out is what the decoder gives.** -/
theorem run_eq (h : m.state.Sound) (hshort : m.count < m.width) (early : Bool) (data : Bytes) :
    run early m data = some (Lzw.run early m.state data) := by
  induction data generalizing m with
  | nil =>
    rw [run, if_pos hshort]
    rfl
  | cons b rest ih =>
    have hwidth : m.width ≤ 12 := h.width_le
    have hload := load_sound h (by omega) b
    rw [run, if_pos hshort, run_cons, byte_state early (by omega)]
    by_cases hmore : (m.load b).count < (m.load b).width
    · rw [if_pos hmore]
      exact ih hload hmore
    rw [if_neg hmore]
    have hcount : (m.load b).count < (m.load b).width + 8 := Nat.add_lt_add_right hshort 8
    obtain ⟨r, hread, hsettle⟩ := read?_eq (behind_sound hload) early (m.load b).front
    rw [run_full hload (Nat.not_lt.mp hmore) hcount, hread]
    cases r with
    | inl m' =>
      obtain ⟨-, hshort', hsound⟩ := count_lt_of_read? hload hcount hread
      rw [Outcome.resume_of_settle_inl hsettle.symm]
      exact ih hsound hshort'
    | inr result =>
      rw [Outcome.resume_of_settle_inr hsettle.symm]
      rfl

namespace Reached

/-- **What holds at the start holds wherever a run comes by.** -/
theorem sound (h : Reached early data m rest codes) : m.state.Sound ∧ m.count < m.width + 8 := by
  induction h with
  | start => exact ⟨State.initial_sound, Nat.zero_lt_succ _⟩
  | @load m b rest codes h hshort ih =>
    have hwidth : m.width ≤ 12 := ih.1.width_le
    exact ⟨load_sound ih.1 (by omega) b, Nat.add_lt_add_right hshort 8⟩
  | @code m taken m' rest codes code h hfull htake hread ih =>
    have hwidth : m.width ≤ 12 := ih.1.width_le
    rw [take?_eq hfull (by omega)] at htake
    cases htake
    obtain ⟨-, hshort, hsound⟩ := count_lt_of_read? ih.1 ih.2 hread
    exact ⟨hsound, by omega⟩

theorem take?_eq (h : Reached early data m rest codes) (hfull : m.width ≤ m.count) :
    m.take? = some (m.front, m.behind) := by
  obtain ⟨hsound, hcount⟩ := h.sound
  have hwidth : m.width ≤ 12 := hsound.width_le
  exact Machine.take?_eq hfull (by omega)

/-- The code before is at hand but where the next one is the first. -/
theorem previous_eq (h : Reached early data m rest codes) :
    m.previous = if isFirst codes then none else codes.head? := by
  induction h with
  | start => rfl
  | load h hshort ih => exact ih
  | @code m taken m' rest codes code h hfull htake hread ih =>
    cases (h.take?_eq hfull).symm.trans htake
    have hmore := code_of_read? (behind_sound h.sound.1) hread
    have hprevious : m'.previous = if m.front = clearCode then none else some m.front :=
      (State.code_more hmore).2
    rw [hprevious, isFirst]
    simp only [List.head?_cons, Option.all_some, beq_iff_eq]

/-- The run goes on from there. -/
theorem run_eq (h : Reached early data m rest codes) :
    run early m rest = run early .initial data := by
  induction h with
  | start => rfl
  | load h hshort ih => rw [← ih, run, if_pos hshort]
  | @code m taken m' rest codes code h hfull htake hread ih =>
    obtain ⟨hsound, hcount⟩ := h.sound
    cases (h.take?_eq hfull).symm.trans htake
    rw [← ih, run_full hsound hfull hcount, hread]

/-- It ends with an error at a code that is refused. -/
theorem exists_refused {fault : DecodeFault} (h : Reached early data m rest codes)
    (hrun : run early m rest = some (.error fault)) :
    ∃ m rest codes code taken, Reached early data m rest codes ∧ m.width ≤ m.count ∧
      m.take? = some (code, taken) ∧ taken.read? early code = some (.inr (.error fault)) := by
  fun_induction run early m rest generalizing codes with
  | case1 => cases hrun
  | case2 m hshort b rest ih => exact ih (h.load hshort) hrun
  | case3 m rest hfull m' hread hless ih =>
    obtain ⟨⟨code, taken⟩, htake, hread⟩ := Option.bind_eq_some_iff.mp hread
    exact ih (h.code (Nat.not_lt.mp hfull) htake hread) hrun
  | case4 => cases hrun
  | case5 m rest hfull result hread =>
    obtain ⟨⟨code, taken⟩, htake, hread⟩ := Option.bind_eq_some_iff.mp hread
    cases hrun
    exact ⟨m, rest, codes, code, taken, h, Nat.not_lt.mp hfull, htake, hread⟩
  | case6 => cases hrun

/-- What is refused there is what the decoder refuses. -/
theorem refused_iff (h : Reached early data m rest codes) {fault : DecodeFault} :
    m.behind.read? early m.front = some (.inr (.error fault)) ↔
      fault = .invalidCode m.front ∧
        (m.table.size < m.front ∨ isFirst codes = true ∧ 258 ≤ m.front) := by
  rw [read?_eq_error_iff (behind_sound h.sound.1)]
  show fault = .invalidCode m.front ∧ (m.table.size < m.front ∨ m.previous = none ∧ 258 ≤ m.front) ↔ _
  have hfirst : m.previous = none ↔ isFirst codes = true := by
    rw [h.previous_eq]
    cases codes with
    | nil => simp [isFirst]
    | cons code codes => by_cases hclear : code = clearCode <;> simp [isFirst, hclear]
  rw [hfirst]

end Reached

end Machine

/-- **Decoding is defined on arbitrary data.** Wherever a run with checks comes by, the code before stands
for a string that is not empty, fewer than 32 bits are pending, and codes have 9 to 12 bits; if there are
enough bits for a code, it is taken and read with nothing out of range. So the run has a result, which is
what `decode` gives. It is an error if and only if a code comes that is beyond the next free one, or that
is none of the first 258 although it is the first at all or behind a clear mark, and the error names it. -/
theorem decode_inRange (early : Bool) (data : Bytes) :
    (∀ m rest codes, Machine.Reached early data m rest codes →
      (∀ previous, m.previous = some previous →
        ∃ string, m.table[previous]? = some string ∧ string ≠ []) ∧
      m.count < 32 ∧ (9 ≤ m.width ∧ m.width ≤ 12) ∧
      (m.width ≤ m.count → ∃ code taken r, m.take? = some (code, taken) ∧
        taken.read? early code = some r)) ∧
    Machine.run early .initial data = some (decode early data) ∧
    ∀ fault, decode early data = .error fault ↔ ∃ m rest codes code taken,
      Machine.Reached early data m rest codes ∧ m.width ≤ m.count ∧ m.take? = some (code, taken) ∧
        fault = .invalidCode code ∧
          (m.table.size < code ∨ Machine.isFirst codes = true ∧ 258 ≤ code) := by
  have hrun : Machine.run early .initial data = some (decode early data) :=
    Machine.run_eq (m := .initial) State.initial_sound (by decide) early data
  refine ⟨fun m rest codes h => ?_, hrun, fun fault => ⟨fun hfault => ?_, ?_⟩⟩
  · obtain ⟨hsound, hcount⟩ := h.sound
    have hwidth : 9 ≤ m.width ∧ m.width ≤ 12 := ⟨hsound.le_width, hsound.width_le⟩
    refine ⟨fun previous hprevious => ?_, by omega, hwidth, fun hfull => ?_⟩
    · obtain ⟨first, tail, hget, -⟩ := Machine.previous_string hsound hprevious
      exact ⟨first :: tail, hget, List.cons_ne_nil first tail⟩
    · obtain ⟨r, hread, -⟩ := Machine.read?_eq (Machine.behind_sound hsound) early m.front
      exact ⟨m.front, m.behind, r, h.take?_eq hfull, hread⟩
  · rw [hfault] at hrun
    obtain ⟨m, rest, codes, code, taken, h, hfull, htake, hread⟩ := Machine.Reached.start.exists_refused hrun
    cases (h.take?_eq hfull).symm.trans htake
    exact ⟨m, rest, codes, m.front, m.behind, h, hfull, htake, h.refused_iff.mp hread⟩
  · rintro ⟨m, rest, codes, code, taken, h, hfull, htake, hrefused⟩
    obtain ⟨hsound, hcount⟩ := h.sound
    cases (h.take?_eq hfull).symm.trans htake
    have hread := h.refused_iff.mpr hrefused
    rw [← h.run_eq, Machine.run_full hsound hfull hcount, hread] at hrun
    exact (Option.some.inj hrun).symm

/-- Where a run is behind a first code that is 65. -/
def Machine.behindFirst : Machine :=
  { ((initial.load 0x20).load 0xC0).behind with previous := some 65, output := #[65] }

/-- A first code completes no string. -/
theorem Machine.emit?_first {m : Machine} (h : m.previous = none) (early : Bool) (code : Nat)
    (string : Bytes) :
    m.emit? early code string = some { m with
      width := codeWidth early m.table.size, previous := some code,
      output := m.output ++ string.toArray } := by
  rw [emit?, add?, h]
  rfl

theorem Machine.reached_behindFirst (rest : Bytes) :
    Reached true (0x20 :: 0xC0 :: rest) behindFirst rest [65] := by
  have hstart : Reached true (0x20 :: 0xC0 :: rest) ((initial.load 0x20).load 0xC0) rest [] :=
    (Reached.start.load (by decide)).load (by decide)
  refine hstart.code (by decide) (hstart.take?_eq (by decide)) ?_
  have hstring : ((initial.load 0x20).load 0xC0).behind.string? 65 = some (some [65]) := by
    decide +kernel
  have hwidth : codeWidth true ((initial.load 0x20).load 0xC0).behind.table.size = 9 := by
    rw [show ((initial.load 0x20).load 0xC0).behind.table = initialTable from rfl,
      State.initialTable_size]
    rfl
  rw [read?_of_string? (by decide) (by decide) hstring, emit?_first rfl, hwidth]
  rfl

/-- The code 259 is one too many behind a first code. -/
theorem decode_inRange_beyond :
    let data := [0x20, 0xC0, 0xC0]
    Machine.Reached true data Machine.behindFirst [0xC0] [65] ∧
      Machine.behindFirst.previous = some 65 ∧
      (∃ string, Machine.behindFirst.table[65]? = some string ∧ string ≠ []) ∧
      decode true data = .error (.invalidCode 259) := by
  intro data
  have hreached := Machine.reached_behindFirst [0xC0]
  obtain ⟨hrange, -, hfault⟩ := decode_inRange true data
  refine ⟨hreached, rfl, (hrange _ _ _ hreached).1 65 rfl, (hfault _).mpr ?_⟩
  have hload := hreached.load (by decide)
  have hfull : (Machine.behindFirst.load 0xC0).width ≤ (Machine.behindFirst.load 0xC0).count := by decide
  refine ⟨_, _, _, 259, _, hload, hfull, hload.take?_eq hfull, rfl, .inl ?_⟩
  show initialTable.size < 259
  rw [State.initialTable_size]
  decide

end PdfScene.Lzw
