import PdfScene.Proofs.Object.Keys
import PdfScene.Proofs.Store.Layout

/-!
# The end of a scan

Behind the definitions the scan must come to its end, read the trailers and find the catalog. It comes
to its end where no header is seen (`definitions_headerless`), the root is that of the last trailer
that has one (`get?_trailers`), and in a file without packed objects the library is that of the
definitions with these trailers (`file_eq`).
-/

set_option autoImplicit false

namespace PdfScene

/-! ## Libraries with the same objects -/

/-- What an object stands for depends on what is found under references, and on nothing else. -/
theorem Library.resolve_congr {lib lib' : Library} (h : ∀ r, lib.find? r = lib'.find? r) (o : Obj) :
    lib.resolve o = lib'.resolve o := by
  have hwithin : ∀ room o, lib.resolveWithin room o = lib'.resolveWithin room o := by
    intro room
    induction room with
    | zero => exact fun _ => rfl
    | succ room ih =>
      intro o
      cases o with
      | ref r =>
        simp only [resolveWithin, h r]
        split
        · exact ih _
        · rfl
      | _ => rfl
  exact hwithin referenceLimit o

namespace Scan

/-! ## Trailers -/

/-- Of the entries that matter, those of the dictionary count, and before them those of the trailer
so far. -/
theorem get?_mergeTrailer {t d : Dict} (hd : Dict.Distinct d) :
    (mergeTrailer t d).get? "Root" = (d.get? "Root").or (t.get? "Root") := by
  unfold mergeTrailer
  induction d generalizing t with
  | nil => rfl
  | cons entry rest ih =>
    obtain ⟨key, value⟩ := entry
    obtain ⟨hhead, hrest⟩ := List.nodup_cons.mp hd
    rw [List.foldl_cons, ih hrest, Dict.get?_cons]
    dsimp only
    by_cases hkey : key = "Root"
    · subst hkey
      have hnone : Dict.get? rest "Root" = none := by
        rw [Dict.get?, List.lookup_eq_none_iff]
        intro e he
        have hne : "Root" ≠ e.1 := fun heq => hhead (List.mem_map.mpr ⟨e, he, heq.symm⟩)
        exact bne_iff_ne.mpr hne
      rw [if_pos (.inl rfl), if_pos rfl, hnone, Dict.get?_insert, if_pos rfl]
      rfl
    · rw [if_neg hkey]
      split
      · rw [Dict.get?_insert, if_neg hkey]
      · rfl

/-- Trailers without a root leave the root as it is. -/
theorem get?_trailers_rootless {t t' : Dict} {p : Place}
    (h : ∀ a b, ∀ d : Dict, p.after = a ++ trailerKeyword ++ b → Obj.ofBytes b = .ok (.dict d) →
      d.get? "Root" = none) (ht : trailers t p = .ok t') : t'.get? "Root" = t.get? "Root" := by
  fun_induction trailers t p with
  | case1 =>
    cases ht
    rfl
  | case2 t p q hfind d hread ih =>
    obtain ⟨a, hafter, -, -⟩ := Place.of_find? hfind
    have hlater := ih (fun a' b d' hq => h (a ++ trailerKeyword ++ a') b d' (by
      rw [hafter, hq]
      simp [trailerKeyword])) ht
    rw [hlater, get?_mergeTrailer (Lookahead.readObject_distinct hread), h a q.after d hafter hread]
    rfl
  | case3 => cases ht
  | case4 t p q hfind hread _ ih =>
    obtain ⟨a, hafter, -, -⟩ := Place.of_find? hfind
    exact ih (fun a' b d' hq => h (a ++ trailerKeyword ++ a') b d' (by
      rw [hafter, hq]
      simp [trailerKeyword])) ht

/-- **The root is that of the last trailer that has one.** -/
theorem get?_trailers {t t' : Dict} {p : Place} {u tail : Bytes} {d : Dict} {root : Obj}
    (hp : p.after = u ++ trailerKeyword ++ tail) (hread : Obj.ofBytes tail = .ok (.dict d))
    (hroot : d.get? "Root" = some root)
    (hlater : ∀ a b, ∀ d' : Dict, tail = a ++ trailerKeyword ++ b → Obj.ofBytes b = .ok (.dict d') →
      d'.get? "Root" = none) (ht : trailers t p = .ok t') : t'.get? "Root" = some root := by
  have hne : trailerKeyword ≠ [] := by decide
  have hunbordered : Unbordered trailerKeyword := by decide
  fun_induction trailers t p generalizing u with
  | case1 t p hfind =>
    exact absurd ⟨u, tail, hp.symm⟩ (Place.not_isInfix_of_find? hne hfind)
  | case2 t p q hfind d' hread' ih =>
    obtain ⟨a, hafter, -, hfirst⟩ := Place.of_find? hfind
    rcases hunbordered.apart (hafter.symm.trans hp) (hfirst u tail hp) with heq | ⟨c, hc⟩
    · -- this is the trailer, and what comes after it leaves its root as it is
      rw [heq, hread] at hread'
      cases hread'
      rw [get?_trailers_rootless (heq ▸ hlater) ht,
        get?_mergeTrailer (Lookahead.readObject_distinct hread), hroot]
      rfl
    · exact ih hc ht
  | case3 => cases ht
  | case4 t p q hfind hread' _ ih =>
    obtain ⟨a, hafter, -, hfirst⟩ := Place.of_find? hfind
    rcases hunbordered.apart (hafter.symm.trans hp) (hfirst u tail hp) with heq | ⟨c, hc⟩
    · -- this is the trailer, but nothing could be read there
      exact absurd (heq ▸ hread) (hread' d)
    · exact ih hc ht

/-- So it is if there is no other trailer behind that one. -/
theorem get?_trailers_clear {t t' : Dict} {p : Place} {u tail : Bytes} {d : Dict} {root : Obj}
    (hp : p.after = u ++ trailerKeyword ++ tail) (hread : Obj.ofBytes tail = .ok (.dict d))
    (hroot : d.get? "Root" = some root) (hclear : ¬ trailerKeyword <:+: tail)
    (ht : trailers t p = .ok t') : t'.get? "Root" = some root :=
  get?_trailers hp hread hroot (fun a b _ hoccurrence _ => absurd ⟨a, b, hoccurrence.symm⟩ hclear) ht

/-- Nothing that stands behind a word `trailer` ends the program. -/
def Unbroken (bytes : Bytes) : Prop := ∀ a b, bytes = a ++ trailerKeyword ++ b →
  ∀ x, Obj.ofBytes b ≠ .error (.panic x)

theorem Unbroken.behind {bytes a b : Bytes} (h : Unbroken bytes)
    (hbytes : bytes = a ++ trailerKeyword ++ b) : Unbroken b := by
  intro a' b' hb
  exact h (a ++ trailerKeyword ++ a') b' (by rw [hbytes, hb]; simp)

/-- Then all trailers are read. -/
theorem Unbroken.trailers_ok {t : Dict} {p : Place} (h : Unbroken p.after) :
    ∃ t', trailers t p = .ok t' := by
  fun_induction trailers t p with
  | case1 t p => exact ⟨t, rfl⟩
  | case2 t p q hfind _ _ ih =>
    obtain ⟨a, hafter, -, -⟩ := Place.of_find? hfind
    exact ih (h.behind hafter)
  | case3 t p q hfind x hread =>
    obtain ⟨a, hafter, -, -⟩ := Place.of_find? hfind
    exact absurd hread (h a q.after hafter x)
  | case4 t p q hfind _ _ ih =>
    obtain ⟨a, hafter, -, -⟩ := Place.of_find? hfind
    exact ih (h.behind hafter)

theorem Unbroken.of_clear {bytes : Bytes} (h : ¬ trailerKeyword <:+: bytes) : Unbroken bytes :=
  fun a b hbytes _ _ => h ⟨a, b, hbytes.symm⟩

/-- It is enough to look behind the first of the words, and then behind the others. -/
theorem Unbroken.cons {a b : Bytes} (hclear : ¬ trailerKeyword <:+: a ++ trailerKeyword.dropLast)
    {o : Obj} (hread : Obj.ofBytes b = .ok o) (h : Unbroken b) :
    Unbroken (a ++ trailerKeyword ++ b) := by
  intro a' b' hbytes x hpanic
  have hunbordered : Scan.Unbordered trailerKeyword := by decide
  obtain ⟨front, hfront, -, hfirst⟩ :=
    Place.of_find? (Place.find?_eq_some [] b (by decide) hclear)
  dsimp only at hfront
  have hlength : front.length = a.length := by
    have := congrArg List.length hfront
    simp only [List.length_append] at this
    omega
  rcases hunbordered.apart hbytes (hlength ▸ hfirst a' b' hbytes) with rfl | ⟨c, rfl⟩
  · cases hread.symm.trans hpanic
  · exact h c b' rfl x hpanic

/-- What ends the program behind the first of the words ends the scan. -/
theorem trailers_eq_error {t : Dict} {before a b : Bytes} {x : Panic}
    (hclear : ¬ trailerKeyword <:+: a ++ trailerKeyword.dropLast)
    (hread : Obj.ofBytes b = .error (.panic x)) :
    trailers t ⟨before, a ++ trailerKeyword ++ b⟩ = .error x := by
  have hfind : Place.find? (Bytes.ofAscii "trailer") before (a ++ trailerKeyword ++ b) = _ :=
    Place.find?_eq_some before b (by decide) hclear
  rw [Scan.trailers]
  split
  · rename_i hnone
    cases hfind.symm.trans hnone
  · rename_i q hq
    cases hfind.symm.trans hq
    rw [hread]

/-! ## Where there is no header -/

/-- No header is seen from a place on. -/
def Place.Headerless (p : Place) : Prop := ∀ a b, p.after = a ++ keyword ++ b →
  definition? ⟨(a ++ keyword).reverse ++ p.before, b⟩ = none

theorem Place.headerless_iff (p : Place) : p.Headerless ↔ ∀ k < p.after.length,
    keyword <+: p.after.drop k → definition? ⟨(p.after.take k ++ keyword).reverse ++ p.before,
      p.after.drop (k + keyword.length)⟩ = none := by
  constructor
  · rintro h k - ⟨t, ht⟩
    have hdrop : p.after.drop (k + keyword.length) = t := by
      rw [← List.drop_drop, ← ht, List.drop_left]
    refine h _ _ ?_
    rw [hdrop, List.append_assoc, ht, List.take_append_drop]
  · intro h a b hab
    have hlength : a.length < p.after.length := by
      have : keyword.length = 3 := by decide
      rw [hab, List.length_append, List.length_append]
      omega
    have htail : p.after.drop a.length = keyword ++ b := by
      rw [hab, List.append_assoc, List.drop_left]
    have hnone := h a.length hlength (htail ▸ List.prefix_append keyword b)
    have htake : p.after.take a.length = a := by
      rw [hab, List.append_assoc, List.take_left]
    rwa [← List.drop_drop, htail, List.drop_left, htake] at hnone

instance (p : Place) : Decidable p.Headerless := decidable_of_iff _ p.headerless_iff.symm

/-- Nothing is found where no header is seen. -/
theorem definitions_headerless {f : Found} {p : Place} (h : p.Headerless) :
    definitions f p = .ok f := by
  fun_induction definitions f p with
  | case1 => rfl
  | case2 f p q hfind r o hread q' hend ih =>
    obtain ⟨a, hafter, hbefore, -⟩ := Place.of_find? hfind
    have hnone := h a q.after hafter
    rw [← hbefore] at hnone
    rw [hnone] at hread
    cases hread
  | case3 f p q hfind r o hread hend ih =>
    obtain ⟨a, hafter, hbefore, -⟩ := Place.of_find? hfind
    have hnone := h a q.after hafter
    rw [← hbefore] at hnone
    rw [hnone] at hread
    cases hread
  | case4 f p q hfind x hread =>
    obtain ⟨a, hafter, hbefore, -⟩ := Place.of_find? hfind
    have hnone := h a q.after hafter
    rw [← hbefore] at hnone
    rw [hnone] at hread
    cases hread
  | case5 f p q hfind hread _ ih =>
    obtain ⟨a, hafter, hbefore, -⟩ := Place.of_find? hfind
    refine ih fun a' b hq => ?_
    have hnone := h (a ++ keyword ++ a') b (by rw [hafter, hq]; simp)
    rw [hbefore]
    simpa using hnone

/-! ## Without packed objects -/

section Unpacked

variable {inflate : Inflater} {bytes : Bytes} {f : Found}
  (hfound : definitions ⟨.empty, []⟩ (.start bytes) = .ok f) (hpacked : f.packed = [])

include hfound hpacked

/-- Where no stream packs objects, the library is that of the definitions with the trailers. -/
theorem file_eq {t : Dict} (htrailers : trailers f.library.trailer (.start bytes) = .ok t) :
    file inflate bytes = rooted { f.library with trailer := t } := by
  simp only [file, gather, hfound, htrailers, bind, Except.bind, hpacked, List.reverse_nil, unpackAll]
  rfl

theorem file_find? {lib : Library} (h : file inflate bytes = .ok lib) (r : ObjRef) :
    lib.find? r = f.library.find? r := by
  obtain ⟨found, trailer, unpacked, hfound', -, hunpacked, hrooted⟩ := file_eq_ok h
  cases hfound.symm.trans hfound'
  rw [hpacked] at hunpacked
  cases hunpacked
  exact find?_of_rooted hrooted r

/-- A file without a catalog is not read. -/
theorem file_eq_error {t : Dict} (htrailers : trailers f.library.trailer (.start bytes) = .ok t)
    {lib : Library} (hlib : lib = { f.library with trailer := t }) (hcatalog : lib.catalog? = none)
    (hfirst : firstCatalog? lib = none) : file inflate bytes = .error (.missing .catalog) := by
  rw [file_eq hfound hpacked htrailers, ← hlib, rooted, hcatalog, hfirst]
  rfl

end Unpacked

end Scan

end PdfScene
