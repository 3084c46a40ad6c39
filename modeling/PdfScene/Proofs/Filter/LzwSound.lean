import Mathlib
import PdfScene.Proofs.Filter.LzwEncoding

/-!
# What holds between codes of LZWDecode

On data that no encoder wrote, too, a code that was read has a string, by then at the latest: the one just
past the table gets it as it is read. The two marks are never the code before, so their empty strings are
not gone on with. `State.Sound` says so, together with the widths that codes can have. It holds at the
start, and a code that leads on keeps it (`Sound.next`).

It also tells which codes stand for nothing (`Sound.lookup?_eq_none_iff`).
-/

set_option autoImplicit false

namespace PdfScene.Lzw

namespace State

/-- What holds of the table, the code before and the width, whatever has been read. -/
structure Sound (s : State) : Prop where
  le_size : 258 ≤ s.table.size
  entry_ne_nil : ∀ code < s.table.size, code ≠ clearCode → code ≠ endCode → s.entry code ≠ []
  previous_lt : ∀ code, s.previous = some code →
    code < s.table.size ∧ code ≠ clearCode ∧ code ≠ endCode
  /-- Strings are added from the second code on. -/
  size_eq : s.previous = none → s.table.size = 258
  le_width : 9 ≤ s.width
  width_le : s.width ≤ 12

variable {s s' : State} {early : Bool} {code : Nat} {string : Bytes}

theorem initialTable_size : initialTable.size = 258 := by
  rw [← Array.length_toList, initialTable_length]

theorem initial_sound : initial.Sound where
  le_size := initialTable_size.ge
  entry_ne_nil code hcode hclear hend := by
    have hlt : code < initialTable.size := hcode
    rw [initialTable_size] at hlt
    have hbyte : code < 256 := by
      simp only [clearCode, endCode] at hclear hend
      omega
    have hget : initialTable[code]? = some [UInt8.ofNat code] := by
      rw [initialTable, Array.getElem?_append_left (by simpa using hbyte)]
      simp [hbyte]
    rw [entry_eq (show initial.table[code]? = some [UInt8.ofNat code] from hget)]
    exact List.cons_ne_nil _ _
  previous_lt := nofun
  size_eq _ := initialTable_size
  le_width := Nat.le_refl 9
  width_le := by decide

/-- There is always a string to go on with. -/
theorem Sound.entry_previous_ne_nil (h : s.Sound) {previous : Nat}
    (hprevious : s.previous = some previous) : s.entry previous ≠ [] := by
  obtain ⟨hlt, hclear, hend⟩ := h.previous_lt previous hprevious
  exact h.entry_ne_nil previous hlt hclear hend

theorem le_codeWidth (early : Bool) (size : Nat) : 9 ≤ codeWidth early size := by
  unfold codeWidth
  grind

theorem codeWidth_le (early : Bool) (size : Nat) : codeWidth early size ≤ 12 := by
  unfold codeWidth
  grind

/-- The pending bits have no bearing on it. -/
theorem Sound.withBits (h : s.Sound) (pending count : Nat) : { s with pending, count }.Sound where
  le_size := h.le_size
  entry_ne_nil := h.entry_ne_nil
  previous_lt := h.previous_lt
  size_eq := h.size_eq
  le_width := h.le_width
  width_le := h.width_le

theorem cleared_size (h : 258 ≤ s.table.size) : s.cleared.table.size = 258 := by
  show (s.table.extract 0 258).size = 258
  rw [Array.size_extract, Nat.min_eq_left h]

theorem cleared_entry (h : code < 258) : s.cleared.entry code = s.entry code := by
  show (s.table.extract 0 258).getD code [] = s.table.getD code []
  simp only [Array.getD_eq_getD_getElem?, Array.getElem?_extract]
  grind

theorem Sound.cleared (h : s.Sound) : s.cleared.Sound where
  le_size := (cleared_size h.le_size).ge
  entry_ne_nil code hcode hclear hend := by
    rw [cleared_size h.le_size] at hcode
    rw [cleared_entry hcode]
    exact h.entry_ne_nil code (Nat.lt_of_lt_of_le hcode h.le_size) hclear hend
  previous_lt := nofun
  size_eq _ := cleared_size h.le_size
  le_width := Nat.le_refl 9
  width_le := Nat.le_of_ble_eq_true rfl

/-- A string that is found is not empty, and with the code before it is at hand by then. -/
theorem Sound.lookup? (h : s.Sound) (hclear : code ≠ clearCode) (hend : code ≠ endCode)
    (hfound : s.lookup? code = some string) :
    string ≠ [] ∧ code ≤ s.table.size ∧ (s.previous = none → code < s.table.size) := by
  unfold State.lookup? at hfound
  split at hfound
  · rename_i hlt
    cases hfound
    exact ⟨h.entry_ne_nil code hlt hclear hend, Nat.le_of_lt hlt, fun _ => hlt⟩
  split at hfound
  · rename_i previous hprevious
    split at hfound
    · rename_i hcode
      cases hfound
      have hentry := h.entry_previous_ne_nil hprevious
      refine ⟨fun hnil => hentry (List.append_eq_nil_iff.mp hnil).1, hcode.le, fun hnone => ?_⟩
      rw [hprevious] at hnone
      cases hnone
    · cases hfound
  · cases hfound

/-- The table grows by one string, unless there was no code before. -/
theorem emit_table (s : State) (early : Bool) (code : Nat) (string : Bytes) :
    (s.emit early code string).table = match s.previous with
      | some previous => s.table.push (s.entry previous ++ string.take 1)
      | none => s.table := rfl

theorem Sound.emit (h : s.Sound) (hclear : code ≠ clearCode) (hend : code ≠ endCode)
    (hle : code ≤ s.table.size) (hlt : s.previous = none → code < s.table.size) :
    (s.emit early code string).Sound := by
  have htable := emit_table s early code string
  have hwidth := le_codeWidth early (s.emit early code string).table.size
  have hwidth' := codeWidth_le early (s.emit early code string).table.size
  cases hprevious : s.previous with
  | none =>
    rw [hprevious] at htable
    refine ⟨htable ▸ h.le_size, fun n hn => ?_, fun n hn => ?_, nofun, hwidth, hwidth'⟩
    · rw [htable] at hn
      rw [entry, htable]
      exact h.entry_ne_nil n hn
    · cases hn
      rw [htable]
      exact ⟨hlt hprevious, hclear, hend⟩
  | some previous =>
    rw [hprevious] at htable
    have hsize : (s.emit early code string).table.size = s.table.size + 1 := by
      rw [htable, Array.size_push]
    refine ⟨?_, fun n hn hnclear hnend => ?_, fun n hn => ?_, nofun, hwidth, hwidth'⟩
    · rw [hsize]
      exact Nat.le_succ_of_le h.le_size
    · rw [entry, htable, Array.getD_eq_getD_getElem?, Array.getElem?_push]
      split
      · have hentry := h.entry_previous_ne_nil hprevious
        exact fun hnil => hentry (List.append_eq_nil_iff.mp hnil).1
      · rw [← Array.getD_eq_getD_getElem?]
        exact h.entry_ne_nil n (by omega) hnclear hnend
    · cases hn
      rw [hsize]
      exact ⟨Nat.lt_succ_of_le hle, hclear, hend⟩

/-- **A code that leads on keeps what holds.** -/
theorem Sound.next (h : s.Sound) (hmore : s.code early code = .more s') : s'.Sound := by
  unfold State.code at hmore
  split at hmore
  · cases hmore
    exact h.cleared
  rename_i hclear
  split at hmore
  · cases hmore
  rename_i hend
  split at hmore
  · rename_i string hfound
    cases hmore
    obtain ⟨-, hle, hlt⟩ := h.lookup? hclear hend hfound
    exact h.emit hclear hend hle hlt
  · cases hmore

/-- It takes no bits, and is the code before from then on, unless it clears the table. -/
theorem code_more (hmore : s.code early code = .more s') :
    s'.count = s.count ∧ s'.previous = if code = clearCode then none else some code := by
  unfold State.code at hmore
  split at hmore
  · rename_i hclear
    cases hmore
    exact ⟨rfl, (if_pos hclear).symm⟩
  rename_i hclear
  split at hmore
  · cases hmore
  split at hmore
  · cases hmore
    exact ⟨rfl, (if_neg hclear).symm⟩
  · cases hmore

/-- **A code stands for nothing if it is beyond the next free one, and if it is none of the first 258
although it is the first one.** -/
theorem Sound.lookup?_eq_none_iff (h : s.Sound) :
    s.lookup? code = none ↔ s.table.size < code ∨ s.previous = none ∧ 258 ≤ code := by
  have hsize := h.le_size
  unfold State.lookup?
  by_cases hlt : code < s.table.size
  · rw [if_pos hlt]
    refine ⟨nofun, ?_⟩
    rintro (hbeyond | ⟨hnone, hbeyond⟩)
    · omega
    · have hfirst := h.size_eq hnone
      omega
  rw [if_neg hlt]
  cases hprevious : s.previous with
  | none =>
    exact ⟨fun _ => .inr ⟨rfl, by omega⟩, fun _ => rfl⟩
  | some previous =>
    by_cases hcode : code = s.table.size
    · simp [hcode]
    · simp only [if_neg hcode, true_iff]
      exact .inl (by omega)

/-- So only such codes are refused. The marks are none of them. -/
theorem Sound.code_eq_fault_iff (h : s.Sound) {fault : Nat} :
    s.code early code = .fault fault ↔
      fault = code ∧ (s.table.size < code ∨ s.previous = none ∧ 258 ≤ code) := by
  rw [← h.lookup?_eq_none_iff, State.code]
  by_cases hmark : code = clearCode ∨ code = endCode
  · have hlow : code < s.table.size := by
      have hsize := h.le_size
      simp only [clearCode, endCode] at hmark
      omega
    have hfound : s.lookup? code ≠ none := by
      rw [State.lookup?, if_pos hlow]
      exact Option.some_ne_none _
    refine ⟨fun hfault => ?_, fun hfault => absurd hfault.2 hfound⟩
    rcases hmark with hclear | hend
    · rw [if_pos hclear] at hfault
      cases hfault
    · rw [if_neg (by rw [hend]; decide), if_pos hend] at hfault
      cases hfault
  · rw [not_or] at hmark
    rw [if_neg hmark.1, if_neg hmark.2]
    cases s.lookup? code with
    | none =>
      refine ⟨fun hfault => ⟨(Outcome.fault.inj hfault).symm, rfl⟩, ?_⟩
      rintro ⟨rfl, -⟩
      rfl
    | some string =>
      constructor
      · intro hfault
        cases hfault
      · rintro ⟨-, hfault⟩
        cases hfault

end State

end PdfScene.Lzw
