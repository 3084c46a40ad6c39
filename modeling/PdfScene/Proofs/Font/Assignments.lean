import Mathlib
import PdfScene.Font.CMap
import PdfScene.Proofs.Object.Keys

/-!
# Values given to codes

The texts and the widths of codes are written as entries, each of which gives values to codes one after
the other, and of the values that a code is given the last one stays. `last?` is that value, of a list
of assignments, and a table that takes them in has it (`getElem?_insertMany`).

Codes have 32 bits, so that `consecutive` values may go round the end of the codes. As long as they do
not, the value of a code is the one as far behind the first as the code is (`last?_consecutive_of_le`).
-/

set_option autoImplicit false

namespace PdfScene.Assignments

variable {α ε : Type}

/-- Values for one code after the other, from `code` on. Behind the greatest code comes zero. -/
def consecutive (code : UInt32) : List α → List (UInt32 × α)
  | [] => []
  | value :: values => (code, value) :: consecutive (code + 1) values

/-- The value that a code is given last. -/
def last? (pairs : List (UInt32 × α)) (code : UInt32) : Option α := pairs.reverse.lookup code

/-- A table that takes assignments in has what it had for the codes that they leave out. -/
theorem getElem?_insertMany (table : Std.HashMap UInt32 α) (pairs : List (UInt32 × α))
    (code : UInt32) : (table.insertMany pairs)[code]? = (last? pairs code).or table[code]? := by
  rw [Std.HashMap.getElem?_insertMany_list, List.findSomeRev?_eq_findSome?_reverse, last?,
    List.lookup_eq_findSome?]
  simp only [Bool.beq_comm]

/-- Of entries, the last one that gives a code a value decides. -/
theorem last?_flatMap (entries : List ε) (pairs : ε → List (UInt32 × α)) (code : UInt32) :
    last? (entries.flatMap pairs) code = entries.reverse.findSome? fun e => last? (pairs e) code := by
  rw [last?, List.reverse_flatMap, lookup_flatMap]
  rfl

theorem findSome?_congr {f g : ε → Option α} {entries : List ε} (h : ∀ e ∈ entries, f e = g e) :
    entries.findSome? f = entries.findSome? g := by
  induction entries with
  | nil => rfl
  | cons e entries ih =>
    obtain ⟨hfirst, hrest⟩ := List.forall_mem_cons.mp h
    rw [List.findSome?_cons, List.findSome?_cons, hfirst, ih hrest]

theorem last?_cons (pair : UInt32 × α) (pairs : List (UInt32 × α)) (code : UInt32) :
    last? (pair :: pairs) code =
      (last? pairs code).or (if code = pair.1 then some pair.2 else none) := by
  obtain ⟨c, value⟩ := pair
  rw [last?, List.reverse_cons, List.lookup_append, List.lookup_cons, List.lookup_nil]
  by_cases h : code = c
  · simp [last?, h]
  · simp [last?, h, beq_false_of_ne h]

/-- How far a code is behind the one after `first`, if it is not `first`. -/
theorem toNat_sub_succ {first code : UInt32} (h : code ≠ first) :
    (code - first).toNat = (code - (first + 1)).toNat + 1 := by
  have hne : code.toNat ≠ first.toNat := fun heq => h (UInt32.toNat_inj.mp heq)
  have hfirst := first.toNat_lt
  have hcode := code.toNat_lt
  simp only [UInt32.toNat_sub, UInt32.toNat_add, UInt32.reduceToNat]
  omega

/-- As codes go round, `first` is the last one behind itself. -/
theorem toNat_sub_self_succ (first : UInt32) : (first - (first + 1)).toNat = 2 ^ 32 - 1 := by
  have hfirst := first.toNat_lt
  simp only [UInt32.toNat_sub, UInt32.toNat_add, UInt32.reduceToNat]
  omega

theorem isSome_last?_consecutive (first : UInt32) (values : List α) (code : UInt32) :
    (last? (consecutive first values) code).isSome ↔ (code - first).toNat < values.length := by
  induction values generalizing first with
  | nil => simp [consecutive, last?]
  | cons value values ih =>
    rw [consecutive, last?_cons, Option.isSome_or, Bool.or_eq_true, ih, List.length_cons]
    by_cases h : code = first
    · simp [h]
    · rw [if_neg h, toNat_sub_succ h]
      simp

/-- Values for no more codes than there are: each code has the value as far behind the first. -/
theorem last?_consecutive {values : List α} (h : values.length ≤ 2 ^ 32) (first code : UInt32) :
    last? (consecutive first values) code = values[(code - first).toNat]? := by
  induction values generalizing first with
  | nil => rfl
  | cons value values ih =>
    rw [List.length_cons] at h
    rw [consecutive, last?_cons, ih (by omega)]
    by_cases hcode : code = first
    · -- the values behind it do not come round to the first code again
      have hnone : values[(first - (first + 1)).toNat]? = none := by
        rw [toNat_sub_self_succ, List.getElem?_eq_none_iff]
        omega
      rw [hcode, hnone, if_pos rfl, UInt32.sub_self]
      rfl
    · rw [if_neg hcode, Option.or_none, toNat_sub_succ hcode, List.getElem?_cons_succ]

/-- Values that do not go round the end of the codes. -/
theorem last?_consecutive_of_le {first : UInt32} {values : List α}
    (h : first.toNat + values.length ≤ 2 ^ 32) (code : UInt32) :
    last? (consecutive first values) code =
      if first ≤ code then values[code.toNat - first.toNat]? else none := by
  have hcode := code.toNat_lt
  rw [last?_consecutive (by omega)]
  split
  case isTrue hle => rw [UInt32.toNat_sub_of_le _ _ hle]
  case isFalse hlt =>
    rw [UInt32.le_iff_toNat_le] at hlt
    rw [List.getElem?_eq_none_iff, UInt32.toNat_sub]
    omega

end PdfScene.Assignments
