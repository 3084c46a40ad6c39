import Mathlib
import PdfScene.Proofs.Store.Scanned

/-!
# Chains of references

A reference may lead to another one, and so on (`Library.Leads`). The chain has an end at an object that
is no reference, or it is broken, because a reference on it is missing or it goes around in a circle
(`Library.Broken`). What an object resolves to depends on nothing but that and the length of the chain:
it is the object at the end if fewer than `referenceLimit` references lead there, and null for every
other chain (`Library.resolve_spec`).
-/

set_option autoImplicit false

namespace PdfScene.Library

/-- Following `n` references, one after the other, leads from an object to another. -/
inductive Leads (lib : Library) : Nat → Obj → Obj → Prop where
  | here {o : Obj} : Leads lib 0 o o
  | follow {n : Nat} {r : ObjRef} {o target : Obj} (hfind : lib.find? r = some o)
      (h : Leads lib n o target) : Leads lib (n + 1) (.ref r) target

/-- Following `n` references leads to an object that is none. -/
def EndsAt (lib : Library) (n : Nat) (o target : Obj) : Prop :=
  lib.Leads n o target ∧ target.ref? = none

/-- The references from an object on lead to one that is missing, or around in a circle. -/
def Broken (lib : Library) (o : Obj) : Prop :=
  ∃ n r, lib.Leads n o (.ref r) ∧ (lib.find? r = none ∨ ∃ k, lib.Leads (k + 1) (.ref r) (.ref r))

variable {lib : Library} {o o' target target' : Obj} {r : ObjRef} {k m n : Nat}

theorem ref_of_ref? (h : o.ref? = some r) : o = .ref r := by
  cases o <;> cases h
  rfl

/-! ## One chain from every object -/

theorem Leads.snoc (h : lib.Leads n o (.ref r)) (hfind : lib.find? r = some o') :
    lib.Leads (n + 1) o o' := by
  generalize hmiddle : Obj.ref r = middle at h
  induction h with
  | here =>
    subst hmiddle
    exact .follow hfind .here
  | follow hfirst _ ih => exact .follow hfirst (ih hmiddle)

/-- A longer chain goes on from where a shorter one leads. -/
theorem Leads.split (h : lib.Leads n o target) (h' : lib.Leads (n + k) o target') :
    lib.Leads k target target' := by
  induction h with
  | here => rwa [Nat.zero_add] at h'
  | @follow n r o target hfind _ ih =>
    rw [Nat.add_right_comm] at h'
    cases h' with
    | follow hfind' h' =>
      obtain rfl : o = _ := Option.some.inj (hfind.symm.trans hfind')
      exact ih h'

/-- Nothing but a reference leads anywhere. -/
theorem Leads.eq_of_ref?_eq_none (h : lib.Leads n o target) (ho : o.ref? = none) :
    n = 0 ∧ target = o := by
  cases h with
  | here => exact ⟨rfl, rfl⟩
  | follow => cases ho

/-- All chains from an object lead to its end. -/
theorem EndsAt.leads (h : lib.EndsAt n o target) (h' : lib.Leads m o target') :
    lib.Leads (n - m) target' target := by
  rcases Nat.le_total m n with hle | hle
  · obtain ⟨k, rfl⟩ := Nat.exists_eq_add_of_le hle
    rw [Nat.add_sub_cancel_left]
    exact h'.split h.1
  · obtain ⟨k, rfl⟩ := Nat.exists_eq_add_of_le hle
    obtain ⟨rfl, rfl⟩ := (h.1.split h').eq_of_ref?_eq_none h.2
    rw [Nat.add_zero, Nat.sub_self]
    exact .here

/-- What leads around in a circle has no end: there would be another one, nearer by a circle. -/
theorem EndsAt.not_circle (h : lib.EndsAt n (.ref r) target) :
    ¬ lib.Leads (k + 1) (.ref r) (.ref r) := by
  intro hcircle
  induction n using Nat.strongRecOn with
  | ind n ih =>
    cases n with
    | zero =>
      obtain ⟨hleads, htarget⟩ := h
      cases hleads
      cases htarget
    | succ n => exact ih (n + 1 - (k + 1)) (by omega) ⟨h.leads hcircle, h.2⟩

/-- A chain with an end is not broken. -/
theorem EndsAt.not_broken (h : lib.EndsAt n o target) : ¬ lib.Broken o := by
  rintro ⟨m, r, hleads, hbroken⟩
  have hend : lib.EndsAt (n - m) (.ref r) target := ⟨h.leads hleads, h.2⟩
  rcases hbroken with hmissing | ⟨k, hcircle⟩
  · obtain ⟨hrest, htarget⟩ := hend
    generalize n - m = rest at hrest
    cases hrest with
    | here => cases htarget
    | follow hfind => cases hmissing.symm.trans hfind
  · exact hend.not_circle hcircle

/-- A chain that has no end leads on, one reference after the other, unless one is missing. -/
theorem exists_leads_ref (hend : ∀ n target, ¬ lib.EndsAt n o target)
    (hmissing : ∀ n r, lib.Leads n o (.ref r) → lib.find? r ≠ none) (n : Nat) :
    ∃ r, lib.Leads n o (.ref r) := by
  induction n with
  | zero =>
    obtain ⟨r, hr⟩ := Option.ne_none_iff_exists'.mp fun ho => hend 0 o ⟨.here, ho⟩
    exact ⟨r, by rw [ref_of_ref? hr]; exact .here⟩
  | succ n ih =>
    obtain ⟨r, hleads⟩ := ih
    obtain ⟨o', hfind⟩ := Option.ne_none_iff_exists'.mp (hmissing n r hleads)
    have hnext := hleads.snoc hfind
    obtain ⟨s, hs⟩ := Option.ne_none_iff_exists'.mp fun ho => hend (n + 1) o' ⟨hnext, ho⟩
    exact ⟨s, by rwa [← ref_of_ref? hs]⟩

instance : Finite ObjRef :=
  Finite.of_injective (fun r : ObjRef => (r.num.toFin, r.generation.toFin)) fun r s h => by
    obtain ⟨hnum, hgeneration⟩ := Prod.mk.inj h
    cases r
    cases s
    simp_all [UInt32.toFin_inj]

/-- **A chain has an end or is broken.** There are finitely many references, so one that goes on and on
comes back to where it has been. -/
theorem broken_iff : lib.Broken o ↔ ∀ n target, ¬ lib.EndsAt n o target := by
  refine ⟨fun h n target hend => hend.not_broken h, fun hend => ?_⟩
  by_cases hmissing : ∃ n r, lib.Leads n o (.ref r) ∧ lib.find? r = none
  · obtain ⟨n, r, hleads, hfind⟩ := hmissing
    exact ⟨n, r, hleads, .inl hfind⟩
  · push Not at hmissing
    choose chain hchain using exists_leads_ref hend hmissing
    obtain ⟨i, j, hne, heq⟩ := Finite.exists_ne_map_eq_of_infinite chain
    wlog hless : i < j generalizing i j
    · exact this j i hne.symm heq.symm (by omega)
    obtain ⟨k, rfl⟩ := Nat.exists_eq_add_of_lt hless
    have hcircle := (hchain i).split (k := k + 1) (hchain (i + k + 1))
    rw [← heq] at hcircle
    exact ⟨i, chain i, hchain i, .inr ⟨k, hcircle⟩⟩

/-! ## What is found within the limit -/

theorem resolveWithin_of_ref?_eq_none (ho : o.ref? = none) (room : Nat) :
    lib.resolveWithin (room + 1) o = o := by
  cases o with
  | ref r => cases ho
  | _ => rfl

theorem resolveWithin_missing (h : lib.find? r = none) (room : Nat) :
    lib.resolveWithin room (.ref r) = .null := by
  cases room with
  | zero => rfl
  | succ room => rw [resolveWithin, h]

theorem resolveWithin_follow (h : lib.find? r = some o) (room : Nat) :
    lib.resolveWithin (room + 1) (.ref r) = lib.resolveWithin room o := by
  rw [resolveWithin, h]

theorem EndsAt.resolveWithin_eq (h : lib.EndsAt n o target) (room : Nat) :
    lib.resolveWithin room o = if n < room then target else .null := by
  obtain ⟨hleads, htarget⟩ := h
  induction hleads generalizing room with
  | here =>
    cases room with
    | zero => rfl
    | succ room => rw [resolveWithin_of_ref?_eq_none htarget, if_pos (Nat.succ_pos room)]
  | follow hfind _ ih =>
    cases room with
    | zero => rfl
    | succ room =>
      rw [resolveWithin_follow hfind, ih room htarget]
      simp only [Nat.add_lt_add_iff_right]

theorem resolveWithin_of_broken (h : ∀ n target, ¬ lib.EndsAt n o target) (room : Nat) :
    lib.resolveWithin room o = .null := by
  induction room generalizing o with
  | zero => rfl
  | succ room ih =>
    obtain ⟨r, hr⟩ := Option.ne_none_iff_exists'.mp fun ho => h 0 o ⟨.here, ho⟩
    obtain rfl := ref_of_ref? hr
    cases hfind : lib.find? r with
    | none => exact resolveWithin_missing hfind _
    | some o =>
      rw [resolveWithin_follow hfind]
      exact ih fun n target hend => h (n + 1) target ⟨.follow hfind hend.1, hend.2⟩

theorem ref?_resolveWithin (room : Nat) (o : Obj) : (lib.resolveWithin room o).ref? = none := by
  induction room generalizing o with
  | zero => rfl
  | succ room ih =>
    cases ho : o.ref? with
    | none => rwa [resolveWithin_of_ref?_eq_none ho]
    | some r =>
      obtain rfl := ref_of_ref? ho
      cases hfind : lib.find? r with
      | none => rw [resolveWithin_missing hfind]; rfl
      | some o => rw [resolveWithin_follow hfind]; exact ih o

/-- **What an object resolves to.** Its chain of references has an end or is broken. The object at the
end is found if fewer references than the limit lead there; it is null otherwise, and so it is if the
chain is broken. It never is a reference, so it resolves to itself. -/
theorem resolve_spec (lib : Library) (o : Obj) :
    (lib.Broken o ↔ ∀ n target, ¬ lib.EndsAt n o target) ∧
      (∀ n target, lib.EndsAt n o target →
        lib.resolve o = if n < referenceLimit then target else .null) ∧
      (lib.Broken o → lib.resolve o = .null) ∧
      (lib.resolve o).ref? = none ∧ lib.resolve (lib.resolve o) = lib.resolve o := by
  have hdirect : (lib.resolve o).ref? = none := ref?_resolveWithin referenceLimit o
  refine ⟨broken_iff, fun n target h => h.resolveWithin_eq referenceLimit, fun h => ?_, hdirect, ?_⟩
  · exact resolveWithin_of_broken (broken_iff.mp h) referenceLimit
  · exact resolveWithin_of_ref?_eq_none hdirect (referenceLimit - 1)

/-- Objects by their numbers, each of which leads to the one before and so on to the first. -/
def chain (first : Obj) : Nat → Library
  | 0 => empty.insert ⟨0, 0⟩ first
  | n + 1 => (chain first n).insert ⟨UInt32.ofNat (n + 1), 0⟩ (.ref ⟨UInt32.ofNat n, 0⟩)

theorem find?_chain {first : Obj} {i : Nat} (hi : i ≤ n) (hn : n < UInt32.size) :
    (chain first n).find? ⟨UInt32.ofNat i, 0⟩ =
      some (if i = 0 then first else .ref ⟨UInt32.ofNat (i - 1), 0⟩) := by
  induction n with
  | zero =>
    obtain rfl := Nat.le_zero.mp hi
    exact find?_insert
  | succ n ih =>
    rw [chain, find?_insert]
    rcases Nat.lt_or_eq_of_le hi with hless | rfl
    · have hne : (⟨UInt32.ofNat (n + 1), 0⟩ : ObjRef) ≠ ⟨UInt32.ofNat i, 0⟩ := by
        intro heq
        have hnum := congrArg UInt32.toNat (ObjRef.mk.inj heq).1
        rw [UInt32.toNat_ofNat_of_lt' hn, UInt32.toNat_ofNat_of_lt' (by omega)] at hnum
        omega
      rw [if_neg hne]
      exact ih (Nat.le_of_lt_succ hless) (by omega)
    · rw [if_pos rfl, if_neg (Nat.succ_ne_zero n), Nat.add_sub_cancel]

theorem endsAt_chain {first : Obj} {i : Nat} (hfirst : first.ref? = none) (hi : i ≤ n)
    (hn : n < UInt32.size) :
    (chain first n).EndsAt (i + 1) (.ref ⟨UInt32.ofNat i, 0⟩) first := by
  refine ⟨?_, hfirst⟩
  induction i with
  | zero => exact .follow (find?_chain hi hn) .here
  | succ i ih => exact .follow (find?_chain hi hn) (ih (Nat.le_of_succ_le hi))

/-- The object at the end of 31 references is found, but not that at the end of 32. -/
theorem resolve_spec_chain :
    let lib := chain (.bool true) 31
    lib.EndsAt 31 (.ref ⟨30, 0⟩) (.bool true) ∧ lib.resolve (.ref ⟨30, 0⟩) = .bool true ∧
      lib.EndsAt 32 (.ref ⟨31, 0⟩) (.bool true) ∧ lib.resolve (.ref ⟨31, 0⟩) = .null := by
  intro lib
  have hnear : lib.EndsAt 31 (.ref ⟨30, 0⟩) (.bool true) := endsAt_chain rfl (by decide) (by decide)
  have hfar : lib.EndsAt 32 (.ref ⟨31, 0⟩) (.bool true) := endsAt_chain rfl (by decide) (by decide)
  obtain ⟨-, hfound, -⟩ := resolve_spec lib (.ref ⟨30, 0⟩)
  obtain ⟨-, hlost, -⟩ := resolve_spec lib (.ref ⟨31, 0⟩)
  exact ⟨hnear, hfound 31 _ hnear, hfar, hlost 32 _ hfar⟩

end PdfScene.Library
