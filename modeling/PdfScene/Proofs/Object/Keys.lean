import PdfScene.Proofs.Object.Plain

/-!
# The keys of dictionaries

A dictionary that is read has each key once, so the entry that is found under a key is the only one.
-/

set_option autoImplicit false

namespace PdfScene

/-- Among pairs that stand together entry by entry, the first entry with the key decides. -/
theorem lookup_flatMap {κ α ε : Type} [BEq κ] (entries : List ε) (pairs : ε → List (κ × α)) (key : κ) :
    (entries.flatMap pairs).lookup key = entries.findSome? fun e => (pairs e).lookup key := by
  induction entries with
  | nil => rfl
  | cons e entries ih =>
    rw [List.flatMap_cons, List.lookup_append, ih, List.findSome?_cons]
    cases List.lookup key (pairs e) <;> rfl

namespace Dict

/-- A dictionary that has each key once. -/
def Distinct (d : Dict) : Prop := (d.map Prod.fst).Nodup

theorem get?_cons (key : String) (value : Obj) (d : Dict) (k : String) :
    get? ((key, value) :: d) k = if key = k then some value else d.get? k := by
  by_cases h : key = k
  · simp [get?, h]
  · have hne : (k == key) = false := beq_eq_false_iff_ne.mpr (Ne.symm h)
    simp [get?, List.lookup_cons, h, hne]

theorem get?_insert (d : Dict) (key : String) (value : Obj) (k : String) :
    (d.insert key value).get? k = if key = k then some value else d.get? k := by
  induction d with
  | nil => exact get?_cons key value [] k
  | cons entry rest ih =>
    obtain ⟨key', value'⟩ := entry
    unfold insert
    by_cases h : key' = key
    · rw [if_pos h, get?_cons, get?_cons, h]
      split <;> rfl
    · rw [if_neg h, get?_cons, get?_cons, ih]
      by_cases hk : key' = k
      · rw [if_pos hk, if_neg fun heq => h (hk.trans heq.symm), if_pos hk]
      · rw [if_neg hk, if_neg hk]

theorem Distinct.insert {d : Dict} (h : d.Distinct) (key : String) (value : Obj) :
    (d.insert key value).Distinct := by
  induction d with
  | nil => exact List.nodup_cons.mpr ⟨List.not_mem_nil, List.nodup_nil⟩
  | cons entry rest ih =>
    obtain ⟨key', value'⟩ := entry
    obtain ⟨hhead, hrest⟩ := List.nodup_cons.mp h
    unfold Dict.insert
    by_cases hkey : key' = key
    · rw [if_pos hkey]
      exact List.nodup_cons.mpr ⟨hkey ▸ hhead, hrest⟩
    · rw [if_neg hkey]
      refine List.nodup_cons.mpr ⟨fun hmem => ?_, ih hrest⟩
      obtain ⟨e, he, hfst⟩ := List.mem_map.mp hmem
      rcases Dict.mem_insert he with rfl | he
      · exact hkey hfst.symm
      · exact hhead (List.mem_map.mpr ⟨e, he, hfst⟩)

end Dict

namespace Lookahead

theorem distinct_invariant :
    Invariant (fun o => ∀ d, o = .dict d → Dict.Distinct d) Dict.Distinct where
  atom o hdict _ d heq := by
    rw [heq] at hdict
    cases hdict
  array items _ d heq := by cases heq
  empty := List.nodup_nil
  insert d key value hd _ := Dict.Distinct.insert hd key value
  dict d hd d' heq := by
    cases heq
    exact hd
  stream d data _ d' heq := by cases heq

/-- **A dictionary that is read has each key once.** -/
theorem readObject_distinct {view : Lookahead} {d : Dict} (h : view.readObject.1 = .ok (.dict d)) :
    d.Distinct :=
  distinct_invariant.readObject h d rfl

end Lookahead

end PdfScene
