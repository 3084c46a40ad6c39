import Mathlib
import PdfScene.Store.Library

/-!
# What can be reached from an object

An object leads to what it is made of, and a reference leads to the object that is defined under it.
That is all that reading a dictionary through a library does, so what is read is among the objects
that can be reached in such steps: `reaches_resolve` for a reference, `reaches_of_mem_array?` for an
entry that is an array. They may lead around in circles, but there are only finitely many of them
(`finite_reaches`), since every object is made of finitely many and finitely many are defined.
-/

set_option autoImplicit false

namespace PdfScene

open Relation (ReflTransGen)

/-! ## Parts -/

namespace Obj

/-- What an object is made of: the items of an array, or the values of a dictionary. -/
def inner (o : Obj) : List Obj := o.array?.getD [] ++ (o.dict?.getD []).map Prod.snd

theorem mem_inner_of_item {o i : Obj} {items : List Obj} (hitems : o.array? = some items)
    (h : i ∈ items) : i ∈ o.inner := by
  rw [inner, hitems]
  exact List.mem_append_left _ h

theorem mem_inner_of_entry {o : Obj} {d : Dict} {e : String × Obj} (hdict : o.dict? = some d)
    (h : e ∈ d) : e.2 ∈ o.inner := by
  rw [inner, hdict]
  exact List.mem_append_right _ (List.mem_map_of_mem h)

theorem sizeOf_lt_of_mem_inner {o i : Obj} (h : i ∈ o.inner) : sizeOf i < sizeOf o := by
  have hentries {d : Dict} (hi : i ∈ d.map Prod.snd) : sizeOf i < sizeOf d := by
    obtain ⟨⟨key, value⟩, he, rfl⟩ := List.mem_map.mp hi
    have hd := List.sizeOf_lt_of_mem he
    simp only [Prod.mk.sizeOf_spec] at hd
    show sizeOf value < sizeOf d
    omega
  cases o with
  | array items =>
    have hitem := List.sizeOf_lt_of_mem (show i ∈ items by simpa [inner, array?, dict?] using h)
    simp only [array.sizeOf_spec]
    omega
  | dict entries =>
    have hentry := hentries (d := entries) h
    simp only [dict.sizeOf_spec]
    omega
  | stream entries data r =>
    have hentry := hentries (d := entries) h
    simp only [stream.sizeOf_spec]
    omega
  | _ => cases h

/-- An object is made of finitely many. -/
theorem finite_inner (o : Obj) : {i | ReflTransGen (fun a b => b ∈ a.inner) o i}.Finite := by
  induction hsize : sizeOf o using Nat.strongRecOn generalizing o with
  | ind n ih =>
    have hinner : (⋃ i ∈ {i | i ∈ o.inner}, {j | ReflTransGen (fun a b => b ∈ a.inner) i j}).Finite :=
      (List.finite_toSet o.inner).biUnion fun i hi =>
        ih _ (hsize ▸ sizeOf_lt_of_mem_inner hi) i rfl
    refine ((Set.finite_singleton o).union hinner).subset fun i hi => ?_
    rcases ReflTransGen.cases_head hi with rfl | ⟨j, hj, hi⟩
    · exact .inl rfl
    · exact .inr (Set.mem_biUnion hj hi)

end Obj

/-! ## Steps -/

namespace Library

/-- What an object leads to in one step. -/
def Near (lib : Library) (a b : Obj) : Prop :=
  b ∈ a.inner ∨ ∃ r, a.ref? = some r ∧ lib.find? r = some b

/-- What an object leads to. -/
def Reaches (lib : Library) (a b : Obj) : Prop := ReflTransGen lib.Near a b

variable {lib : Library}

/-- **Finitely many objects can be reached.** -/
theorem finite_reaches (lib : Library) (o : Obj) : {i | lib.Reaches o i}.Finite := by
  have hdefined : {x | ∃ r, lib.find? r = some x}.Finite := by
    refine (List.finite_toSet (lib.objects.toList.map Prod.snd)).subset fun x ⟨r, hr⟩ => ?_
    exact List.mem_map_of_mem (f := Prod.snd) (Std.HashMap.mem_toList_iff_getElem?_eq_some.mpr hr)
  have hparts := hdefined.biUnion fun x _ => Obj.finite_inner x
  refine ((Obj.finite_inner o).union hparts).subset fun i hi => ?_
  induction hi with
  | refl => exact .inl .refl
  | tail hi hstep ih =>
    rcases hstep with hinner | ⟨r, -, hfind⟩
    · rcases ih with ih | ih
      · exact .inl (ReflTransGen.tail ih hinner)
      · obtain ⟨x, hx, ih⟩ := Set.mem_iUnion₂.mp ih
        exact .inr (Set.mem_biUnion hx (ReflTransGen.tail ih hinner))
    · exact .inr (Set.mem_biUnion ⟨r, hfind⟩ .refl)

theorem reaches_resolveWithin (room : Nat) {o : Obj} (h : lib.resolveWithin room o ≠ .null) :
    lib.Reaches o (lib.resolveWithin room o) := by
  induction room generalizing o with
  | zero => exact absurd rfl h
  | succ room ih =>
    cases o with
    | ref r =>
      rw [resolveWithin] at h ⊢
      cases hfind : lib.find? r with
      | none => simp [hfind] at h
      | some target =>
        simp only [hfind] at h ⊢
        exact .head (.inr ⟨r, rfl, hfind⟩) (ih h)
    | _ => exact .refl

theorem reaches_resolve {o : Obj} (h : lib.resolve o ≠ .null) : lib.Reaches o (lib.resolve o) :=
  reaches_resolveWithin referenceLimit h

theorem reaches_of_mem_array? {o i : Obj} {d : Dict} {key : String} {items : List Obj}
    (hdict : o.dict? = some d) (hitems : lib.array? d key = some items) (h : i ∈ items) :
    lib.Reaches o i := by
  obtain ⟨array, hget, harray⟩ := Option.bind_eq_some_iff.mp hitems
  obtain ⟨entry, hentry, hget⟩ := Option.bind_eq_some_iff.mp hget
  simp only [Option.ite_none_left_eq_some, Option.some.injEq] at hget
  obtain ⟨-, rfl⟩ := hget
  have hvalue : lib.resolve entry ≠ .null := fun hnull => by rw [hnull] at harray; cases harray
  obtain ⟨front, back, rfl, -⟩ := List.lookup_eq_some_iff.mp hentry
  have hinner : entry ∈ o.inner := Obj.mem_inner_of_entry (e := (key, entry)) hdict (by simp)
  exact .head (.inl hinner) ((reaches_resolve hvalue).tail (.inl (Obj.mem_inner_of_item harray h)))

end Library

end PdfScene
