import PdfScene.Proofs.Store.Contents

/-!
# The root of a library

A library without a root gets the first catalog for one. "First" is by number and generation, so it
does not depend on the order in which a hash table lists its entries (`firstCatalog?_least`). Nor
does it depend on data: libraries that differ in the data of a stream have the same root
(`rooted_sameButData`).
-/

set_option autoImplicit false

namespace PdfScene

/-! ## The least reference -/

namespace Scan

/-- A reference as one number. -/
def rank (r : ObjRef) : Nat := r.num.toNat * 2 ^ 32 + r.generation.toNat

theorem refLt_iff (r s : ObjRef) : refLt r s = true ↔ rank r < rank s := by
  have hr := r.generation.toNat_lt
  have hs := s.generation.toNat_lt
  simp only [refLt, rank, Bool.or_eq_true, Bool.and_eq_true, decide_eq_true_eq, beq_iff_eq,
    UInt32.lt_iff_toNat_lt, ← UInt32.toNat_inj]
  omega

theorem rank_injective {r s : ObjRef} (h : rank r = rank s) : r = s := by
  have hr := r.generation.toNat_lt
  have hs := s.generation.toNat_lt
  obtain ⟨num, generation⟩ := r
  obtain ⟨num', generation'⟩ := s
  simp only [rank] at h hr hs
  simp only [ObjRef.mk.injEq, ← UInt32.toNat_inj]
  omega

/-- The least reference of a class, none if the class is empty. -/
def Least (P : ObjRef → Prop) : Option ObjRef → Prop
  | none => ∀ r, ¬ P r
  | some r => P r ∧ ∀ s, P s → rank r ≤ rank s

theorem Least.unique {P : ObjRef → Prop} {a b : Option ObjRef} (ha : Least P a) (hb : Least P b) :
    a = b := by
  cases a with
  | none =>
    cases b with
    | none => rfl
    | some s => exact absurd hb.1 (ha s)
  | some r =>
    cases b with
    | none => exact absurd ha.1 (hb r)
    | some s => rw [rank_injective (Nat.le_antisymm (ha.2 s hb.1) (hb.2 r ha.1))]

/-- References that are no less than one of the class do not change its least. -/
theorem Least.extend {P Q : ObjRef → Prop} {a : Option ObjRef} (ha : Least P a)
    (hsub : ∀ r, P r → Q r) (hle : ∀ s, Q s → ∃ r, P r ∧ rank r ≤ rank s) : Least Q a := by
  cases a with
  | none =>
    intro s hs
    obtain ⟨r, hr, -⟩ := hle s hs
    exact ha r hr
  | some r =>
    refine ⟨hsub r ha.1, fun s hs => ?_⟩
    obtain ⟨t, ht, hts⟩ := hle s hs
    exact Nat.le_trans (ha.2 t ht) hts

/-- A catalog is a dictionary that says so. -/
def IsCatalog (o : Obj) : Prop :=
  (o.dict?.bind fun d => d.get? "Type").bind Obj.name? = some "Catalog"

instance (o : Obj) : Decidable (IsCatalog o) := inferInstanceAs (Decidable (_ = _))

/-- The better one of a reference and the best so far. -/
def least (best : Option ObjRef) (r : ObjRef) : Option ObjRef :=
  match best with
  | some b => if refLt r b then some r else best
  | none => some r

theorem least_le (best : Option ObjRef) (r : ObjRef) :
    ∃ s, least best r = some s ∧ (best = some s ∨ r = s) ∧ rank s ≤ rank r ∧
      ∀ b, best = some b → rank s ≤ rank b := by
  cases best with
  | none => exact ⟨r, rfl, .inr rfl, Nat.le_refl _, nofun⟩
  | some b =>
    by_cases hlt : refLt r b = true
    · have := (refLt_iff r b).mp hlt
      refine ⟨r, if_pos hlt, .inr rfl, Nat.le_refl _, fun b' hb' => ?_⟩
      cases hb'
      omega
    · have := mt (refLt_iff r b).mpr hlt
      refine ⟨b, if_neg hlt, .inl rfl, by omega, fun b' hb' => ?_⟩
      cases hb'
      exact Nat.le_refl _

/-- A search through a list finds the least of the catalogs and of what has been found before. -/
theorem foldl_least (entries : List (ObjRef × Obj)) (best : Option ObjRef) :
    Least (fun r => best = some r ∨ ∃ o, (r, o) ∈ entries ∧ IsCatalog o)
      (entries.foldl (fun best e => if IsCatalog e.2 then least best e.1 else best) best) := by
  induction entries generalizing best with
  | nil =>
    cases best with
    | none => simp [Least]
    | some b => simp [Least]
  | cons e entries ih =>
    rw [List.foldl_cons]
    by_cases hcatalog : IsCatalog e.2
    · rw [if_pos hcatalog]
      obtain ⟨s, hs, hfrom, hle, hbest⟩ := least_le best e.1
      refine (ih _).extend (fun r hr => ?_) (fun r hr => ?_)
      · rcases hr with hr | ⟨o, ho, hobj⟩
        · rw [hs] at hr
          cases hr
          rcases hfrom with hfrom | hfrom
          · exact .inl hfrom
          · exact .inr ⟨e.2, hfrom ▸ List.mem_cons_self, hcatalog⟩
        · exact .inr ⟨o, List.mem_cons_of_mem _ ho, hobj⟩
      · rcases hr with hr | ⟨o, ho, hobj⟩
        · exact ⟨s, .inl hs, hbest r hr⟩
        · rcases List.mem_cons.mp ho with rfl | ho
          · exact ⟨s, .inl hs, hle⟩
          · exact ⟨r, .inr ⟨o, ho, hobj⟩, Nat.le_refl _⟩
    · rw [if_neg hcatalog]
      refine (ih _).extend (fun r hr => ?_) (fun r hr => ?_)
      · exact hr.imp_right fun ⟨o, ho, hobj⟩ => ⟨o, List.mem_cons_of_mem _ ho, hobj⟩
      · rcases hr with hr | ⟨o, ho, hobj⟩
        · exact ⟨r, .inl hr, Nat.le_refl _⟩
        · rcases List.mem_cons.mp ho with rfl | ho
          · exact absurd hobj hcatalog
          · exact ⟨r, .inr ⟨o, ho, hobj⟩, Nat.le_refl _⟩

/-- **The first catalog is the least reference to one.** -/
theorem firstCatalog?_least (lib : Library) :
    Least (fun r => ∃ o, lib.find? r = some o ∧ IsCatalog o) (firstCatalog? lib) := by
  have hmem : ∀ r o, (r, o) ∈ lib.objects.toList ↔ lib.find? r = some o := fun _ _ =>
    Std.HashMap.mem_toList_iff_getElem?_eq_some
  have hfold : firstCatalog? lib = lib.objects.toList.foldl
      (fun best e => if IsCatalog e.2 then least best e.1 else best) none := by
    rw [firstCatalog?, Std.HashMap.fold_eq_foldl_toList]
    rfl
  rw [hfold]
  refine (foldl_least lib.objects.toList none).extend (fun r hr => ?_) fun r hr => ?_
  · obtain ⟨o, ho, hcatalog⟩ := hr.resolve_left nofun
    exact ⟨o, (hmem r o).mp ho, hcatalog⟩
  · obtain ⟨o, ho, hcatalog⟩ := hr
    exact ⟨r, .inr ⟨o, (hmem r o).mpr ho, hcatalog⟩, Nat.le_refl _⟩

end Scan

/-! ## Libraries that differ in data -/

/-- Two objects that are the same, or one stream with one data and with the other. -/
def Obj.SameButData (r : ObjRef) (d : Dict) (data data' : Bytes) (o o' : Obj) : Prop :=
  o = o' ∨ o = .stream d data (some r) ∧ o' = .stream d data' (some r)

namespace Obj.SameButData

variable {r : ObjRef} {d : Dict} {data data' : Bytes} {o o' : Obj}

theorem dict?_eq (h : o.SameButData r d data data' o') : o.dict? = o'.dict? := by
  rcases h with rfl | ⟨rfl, rfl⟩
  · rfl
  · rfl

theorem isNull_eq (h : o.SameButData r d data data' o') : o.isNull = o'.isNull := by
  rcases h with rfl | ⟨rfl, rfl⟩
  · rfl
  · rfl

end Obj.SameButData

namespace Library

/-- Two libraries with the same trailer and the same objects, but for the data of the stream under a
reference. -/
structure SameButData (r : ObjRef) (d : Dict) (data data' : Bytes) (lib lib' : Library) : Prop where
  trailer : lib.trailer = lib'.trailer
  objects : ∀ q, lib.find? q = lib'.find? q ∨
    q = r ∧ lib.find? q = some (.stream d data (some r)) ∧
      lib'.find? q = some (.stream d data' (some r))

namespace SameButData

variable {r : ObjRef} {d : Dict} {data data' : Bytes} {lib lib' : Library}

theorem symm (h : lib.SameButData r d data data' lib') : lib'.SameButData r d data' data lib where
  trailer := h.trailer.symm
  objects q := (h.objects q).imp Eq.symm fun ⟨hq, hfind, hfind'⟩ => ⟨hq, hfind', hfind⟩

theorem resolve (h : lib.SameButData r d data data' lib') (o : Obj) :
    (lib.resolve o).SameButData r d data data' (lib'.resolve o) := by
  have hwithin : ∀ room o,
      (lib.resolveWithin room o).SameButData r d data data' (lib'.resolveWithin room o) := by
    intro room
    induction room with
    | zero => exact fun _ => .inl rfl
    | succ room ih =>
      intro o
      cases o with
      | ref q =>
        rcases h.objects q with heq | ⟨-, hfind, hfind'⟩
        · simp only [resolveWithin, heq]
          split
          · exact ih _
          · exact .inl rfl
        · -- a stream stands for itself
          simp only [resolveWithin, hfind, hfind']
          cases room with
          | zero => exact .inl rfl
          | succ room => exact .inr ⟨rfl, rfl⟩
      | _ => exact .inl rfl
  exact hwithin referenceLimit o

theorem catalog?_eq (h : lib.SameButData r d data data' lib') : lib.catalog? = lib'.catalog? := by
  unfold catalog? dict? get?
  rw [← h.trailer]
  cases hroot : lib.trailer.get? "Root" with
  | none => rfl
  | some root =>
    simp only [Option.bind_some, (h.resolve root).isNull_eq]
    split
    · rfl
    · exact (h.resolve root).dict?_eq

theorem firstCatalog?_eq (h : lib.SameButData r d data data' lib') :
    Scan.firstCatalog? lib = Scan.firstCatalog? lib' := by
  have hsub : ∀ {lib lib' : Library} {data data' : Bytes}, lib.SameButData r d data data' lib' →
      ∀ q, (∃ o, lib.find? q = some o ∧ Scan.IsCatalog o) →
        ∃ o, lib'.find? q = some o ∧ Scan.IsCatalog o := by
    rintro lib lib' data data' h q ⟨o, ho, hcatalog⟩
    rcases h.objects q with heq | ⟨-, hfind, hfind'⟩
    · exact ⟨o, heq ▸ ho, hcatalog⟩
    · cases ho.symm.trans hfind
      exact ⟨_, hfind', hcatalog⟩
  refine Scan.Least.unique (Scan.firstCatalog?_least lib) ?_
  exact (Scan.firstCatalog?_least lib').extend (hsub h.symm) fun q hq => ⟨q, hsub h q hq, Nat.le_refl _⟩

theorem insert (h : lib.SameButData r d data data' lib') (q : ObjRef) (o : Obj) :
    (lib.insert q o).SameButData r d data data' (lib'.insert q o) where
  trailer := h.trailer
  objects p := by
    rw [find?_insert, find?_insert]
    split
    · exact .inl rfl
    · exact h.objects p

theorem isSome_eq (h : lib.SameButData r d data data' lib') (q : ObjRef) :
    (lib.find? q).isSome = (lib'.find? q).isSome := by
  rcases h.objects q with heq | ⟨-, hfind, hfind'⟩
  · rw [heq]
  · rw [hfind, hfind']
    rfl

/-- Packed objects are taken into both libraries alike. -/
theorem insertNew (h : lib.SameButData r d data data' lib') {entry : Packed} {next : Library}
    (hnext : lib.insertNew entry = .ok next) :
    ∃ next', lib'.insertNew entry = .ok next' ∧ next.SameButData r d data data' next' := by
  rcases insertNew_eq_ok hnext with ⟨q, o, rfl, hsome, rfl⟩ | ⟨q, o, rfl, hnone, rfl⟩
  · exact ⟨lib', if_pos (h.isSome_eq q ▸ hsome), h⟩
  · have hnone' : (lib'.find? q).isSome = false := by rw [← h.isSome_eq, hnone]; rfl
    exact ⟨lib'.insert q o, if_neg (Bool.eq_false_iff.mp hnone'), h.insert q o⟩

theorem foldlM_insertNew (h : lib.SameButData r d data data' lib') {entries : List Packed}
    {last : Library} (hlast : entries.foldlM Library.insertNew lib = .ok last) :
    ∃ last', entries.foldlM Library.insertNew lib' = .ok last' ∧
      last.SameButData r d data data' last' := by
  induction entries generalizing lib lib' with
  | nil =>
    cases hlast
    exact ⟨lib', rfl, h⟩
  | cons entry entries ih =>
    rw [List.foldlM_cons] at hlast
    cases hentry : lib.insertNew entry with
    | error x =>
      rw [hentry] at hlast
      cases hlast
    | ok next =>
      rw [hentry] at hlast
      obtain ⟨next', hentry', hnext⟩ := h.insertNew hentry
      rw [List.foldlM_cons, hentry']
      exact ih hnext hlast

end SameButData

end Library

namespace Scan

variable {r : ObjRef} {d : Dict} {data data' : Bytes} {lib lib' lib₁ : Library}

/-- **A root depends on no data.** -/
theorem rooted_sameButData (h : lib.SameButData r d data data' lib') (hrooted : rooted lib = .ok lib₁) :
    ∃ lib₁', rooted lib' = .ok lib₁' ∧ lib₁.SameButData r d data data' lib₁' := by
  unfold rooted at hrooted ⊢
  rw [← h.catalog?_eq, ← h.firstCatalog?_eq]
  split at hrooted
  · rename_i hcatalog
    cases hrooted
    exact ⟨lib', if_pos hcatalog, h⟩
  · rename_i hcatalog
    rw [if_neg hcatalog]
    cases hfirst : firstCatalog? lib with
    | none =>
      rw [hfirst] at hrooted
      cases hrooted
    | some q =>
      rw [hfirst] at hrooted
      cases hrooted
      exact ⟨_, rfl, by rw [h.trailer], h.objects⟩

end Scan

end PdfScene
