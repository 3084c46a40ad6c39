import Mathlib.Data.List.Forall2
import PdfScene.Proofs.Resource.Agreement

/-!
# Looking names up

Content asks for resources by name, in a list of scopes. `Scopes.find_agree` carries an agreement
from single scopes to lists: two lists whose dictionaries are the same, one by one, give related
answers, since each scope that the search passes over leaves a sound memory.

A form is the one resource whose reading adds to the scopes: its own resources are a scope made on
the spot. `Form.read_anonymous` says what a form is apart from the numbers issued on the way, and
`Scopes.sound_of_form` that the memory it was read into is sound for its scope as well.
-/

set_option autoImplicit false

namespace PdfScene

open Run

/-! ## Lists of scopes -/

/-- Two lists of scopes with the same dictionaries. -/
abbrev Scopes.Alike (S T : Scopes) : Prop := List.Forall₂ (fun s t => s.dict = t.dict) S T

theorem Scopes.Alike.refl (S : Scopes) : S.Alike S := List.forall₂_same.mpr fun _ _ => rfl

namespace Scopes

variable {lib : Library} {roots : List Dict} {S T : Scopes}

/-- A search agrees with another if the look-ups in their scopes agree. -/
theorem find_agree {α β : Type} {R : α → β → Prop} {f : Scope → Run (Option α)}
    {g : Scope → Run (Option β)}
    (h : ∀ s ∈ S, ∀ t ∈ T, s.dict = t.dict → Agree lib roots S T (Option.Rel R) (f s) (g t))
    (hST : S.Alike T) : Agree lib roots S T (Option.Rel R) (find f S) (find g T) := by
  -- the scopes left to search shrink, those the memories are sound for stay
  suffices hsuffix : ∀ {S' T' : Scopes}, S'.Alike T' → S' ⊆ S → T' ⊆ T →
      Agree lib roots S T (Option.Rel R) (find f S') (find g T') from
    hsuffix hST (List.Subset.refl S) (List.Subset.refl T)
  intro S' T' halike
  induction halike with
  | nil => exact fun _ _ => Agree.pure .none
  | @cons s t S' T' hdict _ ih =>
    intro hS hT
    obtain ⟨hs, hS⟩ := List.cons_subset.mp hS
    obtain ⟨ht, hT⟩ := List.cons_subset.mp hT
    refine Agree.bind (h s hs t ht hdict) fun a b hab => ?_
    cases hab with
    | none => exact ih hS hT
    | some hab => exact Agree.pure (.some hab)

/-- A search that is steady in each scope comes to one answer. -/
theorem find_eq {α : Type} {f : Scope → Run (Option α)}
    (h : ∀ s ∈ S, ∀ t ∈ T, s.dict = t.dict → Agree lib roots S T Eq (f s) (f t))
    (hST : S.Alike T) : Agree lib roots S T Eq (find f S) (find f T) := by
  refine (find_agree (R := Eq) (fun s hs t ht hdict => ?_) hST).mono fun a b hab => ?_
  · refine (h s hs t ht hdict).mono fun a b hab => ?_
    subst hab
    cases a with
    | none => exact .none
    | some a => exact .some rfl
  · cases hab with
    | none => rfl
    | some hab => rw [hab]

end Scopes

/-! ## Names in one scope -/

namespace Scope

variable {lib : Library} {roots : List Dict} {S T : Scopes} {s t : Scope}

theorem entry?_congr (h : s.dict = t.dict) : s.entry? lib = t.entry? lib := by
  funext category name
  rw [Scope.entry?, Scope.entry?, h]

/-- What is made of an entry that is a reference is made of what that leads to. -/
theorem bind_entry?_ref {α : Type} {f : Obj → Option α} {category name : String} {d : Dict}
    {r : ObjRef} {o : Obj} (hd : lib.dict? s.dict category = some d)
    (hname : d.get? name = some (.ref r)) (h : lib.find? r = some o) (ho : o.ref? = none)
    (hnull : o.isNull = false) :
    ((s.entry? lib category name).bind fun o => f (lib.resolve o)) = f o := by
  have hentry : s.entry? lib category name = some (.ref r) := by
    rw [Scope.entry?, hd, Option.bind_some, hname, Option.bind_some, Library.resolve_ref h ho]
    exact if_neg (Bool.eq_false_iff.mp hnull)
  rw [hentry, Option.bind_some, Library.resolve_ref h ho]

variable (hco : lib.Coherent roots)
include hco

theorem font_agree {name : String} (hs : s ∈ S) (ht : t ∈ T) (h : s.dict = t.dict) :
    Agree lib roots S T Eq (Scope.font? lib name s) (Scope.font? lib name t) := by
  intro F G m n hF hG hm hn
  obtain ⟨hval, hsound⟩ := hm.scopeFont name hco (hF hs)
  obtain ⟨hval', hsound'⟩ := hn.scopeFont name hco (hG ht)
  refine ⟨?_, hsound, hsound'⟩
  rw [Panic.rel_eq_iff, hval, hval', Scope.fontAfresh, Scope.fontAfresh, entry?_congr h]

end Scope

/-! ## Names in a list of scopes -/

namespace Scopes

variable {lib : Library} {roots : List Dict} {S T : Scopes}

/-- A look-up that depends on the dictionary alone and is steady there is steady in a list. -/
theorem find_steady {α : Type} {f : Scope → Run (Option α)}
    (hcongr : ∀ s t : Scope, s.dict = t.dict → f s = f t)
    (hsteady : ∀ s, lib.HoldsDict roots s.dict → Steady lib roots S T (f s)) (hST : S.Alike T) :
    Agree lib roots S T Eq (find f S) (find f T) := fun F G m n hF hG hm hn =>
  find_eq (fun s hs t _ hdict => hcongr s t hdict ▸ hsteady s (hm.held s (hF hs))) hST F G m n hF hG
    hm hn

section

variable (hco : lib.Coherent roots)
include hco

theorem font_agree (name : String) (hST : S.Alike T) :
    Agree lib roots S T Eq (S.font? lib name) (T.font? lib name) :=
  find_eq (fun _ hs _ ht hdict => Scope.font_agree hco hs ht hdict) hST

theorem colorSpace_agree (name : String) (hST : S.Alike T) :
    Agree lib roots S T Eq (S.colorSpace? lib name) (T.colorSpace? lib name) :=
  find_steady (fun _ _ h => by unfold Scope.colorSpace?; rw [Scope.entry?_congr h])
    (fun _ hs => (Steady.compositional hco).colorSpace? hs) hST

theorem pattern_agree (name : String) (hST : S.Alike T) :
    Agree lib roots S T Eq (S.pattern? lib name) (T.pattern? lib name) :=
  find_steady (fun _ _ h => by unfold Scope.pattern?; rw [Scope.entry?_congr h])
    (fun _ hs => (Steady.compositional hco).pattern? hs) hST

theorem shading_agree (name : String) (hST : S.Alike T) :
    Agree lib roots S T Eq (S.shading? lib name) (T.shading? lib name) :=
  find_steady (fun _ _ h => by unfold Scope.shading?; rw [Scope.entry?_congr h])
    (fun _ hs => (Steady.compositional hco).shading? hs) hST

theorem parameters_agree (name : String) (hST : S.Alike T) :
    Agree lib roots S T Eq (S.parameters? lib name) (T.parameters? lib name) :=
  find_steady (fun _ _ h => by unfold Scope.parameters?; rw [Scope.entry?_congr h])
    (fun _ hs => (Steady.compositional hco).parameters? hs) hST

end

end Scopes

/-! ## Forms, up to the numbers issued -/

/-- The form without the numbers issued to it and to the scope of its resources. -/
def Form.anonymous (f : Form) : Form :=
  { f with
    id := if f.ref.isNone then 0 else f.id
    resources := f.resources.map fun s => ⟨0, s.dict⟩ }

/-- The form of a stream, without the numbers that reading it issues. -/
def Form.ofStream (lib : Library) (s : StreamObj) : Form :=
  { id := (s.ref.map ObjRef.num).getD 0
    ref := s.ref
    bbox := lib.rect? s.dict "BBox"
    matrix := (lib.matrix? s.dict "Matrix").getD .identity
    resources := (lib.resources? s.dict).map fun d => ⟨0, d⟩
    outer := []
    state := .initial
    stream := s }

/-- Reading a form always comes to one, and it is the form of its stream. -/
theorem Form.read_anonymous (lib : Library) (s : StreamObj) (m : Memory) :
    ∃ f m', Form.read lib s m = (.ok f, m') ∧ f.anonymous = Form.ofStream lib s := by
  unfold Form.read Form.ofStream
  cases lib.resources? s.dict <;> cases hr : s.ref <;> exact ⟨_, _, rfl, rfl⟩

/-- The scope that is made for the resources of a form is one more scope the memory is sound for. -/
theorem Memory.Sound.readForm {lib : Library} {roots : List Dict} {S : Scopes} {m m' : Memory}
    {s : StreamObj} {f : Form} (h : m.Sound lib roots S) (hs : lib.HoldsStream roots s)
    (hread : Form.read lib s m = (.ok f, m')) : m'.Sound lib roots (f.resources.toList ++ S) := by
  unfold Form.read at hread
  cases hd : lib.resources? s.dict with
  | none =>
    rw [hd] at hread
    cases hr : s.ref with
    | none =>
      rw [hr] at hread
      cases hread
      exact h.issueId
    | some r =>
      rw [hr] at hread
      cases hread
      exact h
  | some d =>
    have hcreate := h.create (hs.dict.dict hd)
    rw [hd] at hread
    cases hr : s.ref with
    | none =>
      rw [hr] at hread
      cases hread
      exact hcreate.issueId
    | some r =>
      rw [hr] at hread
      cases hread
      exact hcreate

/-- A form sees its own scope and those of what uses it. -/
theorem Form.scopes_subset {f : Form} {F : Scopes} (h : f.outer ⊆ F) :
    f.scopes ⊆ f.resources.toList ++ F :=
  List.append_subset.mpr ⟨List.subset_append_left _ _, List.subset_append_of_subset_right _ h⟩

/-- Images or forms, of a stream that comes up, that differ in the numbers issued to them at most.
-/
def XObject.Alike (lib : Library) (roots : List Dict) : XObject → XObject → Prop
  | .image i, .image j => i.Alike j ∧ lib.HoldsStream roots i.stream
  | .form f, .form g => f.anonymous = g.anonymous ∧ lib.HoldsStream roots f.stream
  | _, _ => False

/-- The stream of a form that a scope names. -/
def Scope.formStream? (lib : Library) (name : String) (s : Scope) : Option StreamObj :=
  ((s.entry? lib "XObject" name).bind fun o => (lib.resolve o).stream?).filter fun stream =>
    lib.name? stream.dict "Subtype" == some "Form"

namespace Scope

variable {lib : Library} {roots : List Dict} {S T : Scopes} {s t : Scope} {name : String}

theorem formStream?_congr (h : s.dict = t.dict) :
    s.formStream? lib name = t.formStream? lib name := by
  unfold Scope.formStream?
  rw [entry?_congr h]

/-- A form that a scope names is the one that is read from its stream. -/
theorem read_of_xobject {f : Form} {m m' : Memory}
    (h : s.xobject? lib name m = (.ok (some (.form f)), m')) :
    ∃ stream, s.formStream? lib name = some stream ∧ Form.read lib stream m = (.ok f, m') := by
  -- the look-up is taken apart before it is run: a match that is applied does not split
  obtain ⟨x, hx⟩ : ∃ x, x = s.xobject? lib name := ⟨_, rfl⟩
  rw [← hx] at h
  unfold Scope.xobject? at hx
  unfold Scope.formStream?
  cases hs : (s.entry? lib "XObject" name).bind fun o => (lib.resolve o).stream? with
  | none =>
    rw [hs] at hx
    subst hx
    cases h
  | some stream =>
    rw [hs] at hx
    dsimp only at hx
    split at hx
    · subst hx
      obtain ⟨answer, m₁, -, h⟩ := bind_eq_iff.mp h
      cases answer <;> cases h
    · rename_i hform
      subst hx
      obtain ⟨g, m₁, hread, h⟩ := bind_eq_iff.mp h
      cases h
      exact ⟨stream, by simp [hform], hread⟩
    · subst hx
      cases h

theorem xobject?_of_formStream {stream : StreamObj} {f : Form} {m m' : Memory}
    (h : s.formStream? lib name = some stream) (hread : Form.read lib stream m = (.ok f, m')) :
    s.xobject? lib name m = (.ok (some (.form f)), m') := by
  obtain ⟨hs, hform⟩ := Option.filter_eq_some_iff.mp h
  have hsubtype : lib.name? stream.dict "Subtype" = some "Form" := by simpa using hform
  unfold Scope.xobject?
  rw [hs]
  dsimp only
  rw [hsubtype]
  exact bind_of_eq hread

theorem holds_formStream {stream : StreamObj} (h : lib.HoldsDict roots s.dict)
    (hs : s.formStream? lib name = some stream) : lib.HoldsStream roots stream := by
  obtain ⟨hs, _⟩ := Option.filter_eq_some_iff.mp hs
  obtain ⟨o, ho, hs⟩ := Option.bind_eq_some_iff.mp hs
  exact (holds_entry h ho).resolve.stream hs

theorem xobject_agree (hco : lib.Coherent roots) (name : String) (hs : lib.HoldsDict roots s.dict)
    (h : s.dict = t.dict) :
    Agree lib roots S T (Option.Rel (XObject.Alike lib roots)) (s.xobject? lib name)
      (t.xobject? lib name) := by
  have hspace : ∀ space, s.colorSpace? lib space = t.colorSpace? lib space := fun space => by
    unfold Scope.colorSpace?; rw [entry?_congr h]
  unfold Scope.xobject?
  rw [entry?_congr h]
  simp only [← hspace]
  cases hstream : (t.entry? lib "XObject" name).bind fun o => (lib.resolve o).stream? with
  | none => exact Agree.pure .none
  | some stream =>
    obtain ⟨o, ho, hos⟩ := Option.bind_eq_some_iff.mp hstream
    have hheld : lib.HoldsStream roots stream := (holds_entry (h ▸ hs) ho).resolve.stream hos
    dsimp only
    split
    · refine Agree.bind (Image.read_agree hco hheld.dict fun space =>
        (Steady.compositional hco).colorSpace? hs) fun a b hab => ?_
      match a, b, hab with
      | .ok i, .ok j, ⟨hij, hi⟩ => exact Agree.pure (.some ⟨hij, hi ▸ hheld⟩)
      | .error e, .error e', _ => exact Agree.pure .none
    · intro F G m n _ _ hm hn
      obtain ⟨f, m', hf, hform⟩ := Form.read_anonymous lib stream m
      obtain ⟨g, n', hg, hform'⟩ := Form.read_anonymous lib stream n
      have hm' := (hm.readForm hheld hf).subset (List.subset_append_right _ _)
      have hn' := (hn.readForm hheld hg).subset (List.subset_append_right _ _)
      have hstream' : f.stream = stream := congrArg Form.stream hform
      rw [bind_of_eq hf, bind_of_eq hg]
      exact ⟨.ok (.some ⟨hform.trans hform'.symm, hstream' ▸ hheld⟩), hm', hn'⟩
    · exact Agree.pure .none

end Scope

namespace Scopes

variable {lib : Library} {roots : List Dict} {S T : Scopes} {name : String}

theorem xobject_agree (hco : lib.Coherent roots) (name : String) (hST : S.Alike T) :
    Agree lib roots S T (Option.Rel (XObject.Alike lib roots)) (S.xobject? lib name)
      (T.xobject? lib name) :=
  fun F G m n hF hG hm hn =>
    find_agree (fun s hs _ _ h => Scope.xobject_agree hco name (hm.held s (hF hs)) h) hST F G m n hF
      hG hm hn

theorem mem_of_find {α : Type} {f : Scope → Run (Option α)} {a : α} {m m' : Memory}
    (h : find f S m = (.ok (some a), m')) : ∃ s ∈ S, ∃ m₀, f s m₀ = (.ok (some a), m') := by
  induction S generalizing m with
  | nil => cases h
  | cons s outer ih =>
    obtain ⟨answer, m₀, hs, h⟩ := bind_eq_iff.mp h
    cases answer with
    | some b => exact ⟨s, List.mem_cons_self, m, hs.trans h⟩
    | none =>
      obtain ⟨t, ht, hfound⟩ := ih h
      exact ⟨t, List.mem_cons_of_mem _ ht, hfound⟩

/-- The memory that a search leaves is sound for the scope of the form it finds as well. -/
theorem sound_of_form {F : Scopes} {f : Form} {m m' : Memory} (hco : lib.Coherent roots)
    (hF : S ⊆ F) (hm : m.Sound lib roots F)
    (h : S.xobject? lib name m = (.ok (some (.form f)), m')) :
    m'.Sound lib roots (f.resources.toList ++ F) := by
  change find (Scope.xobject? lib name) S m = (.ok (some (.form f)), m') at h
  induction S generalizing m with
  | nil => cases h
  | cons s outer ih =>
    obtain ⟨hs, houter⟩ := List.cons_subset.mp hF
    have hheld := hm.held s hs
    have hsound := ((Scope.xobject_agree (T := F) (t := s) hco name hheld rfl).run hm hm).2.1
    obtain ⟨answer, m₀, hx, h⟩ := bind_eq_iff.mp h
    rw [hx] at hsound
    cases answer with
    -- a scope that is passed over leaves the memory sound; the one that answers adds one
    | none => exact ih houter hsound h
    | some b =>
      cases h
      obtain ⟨stream, hstream, hread⟩ := Scope.read_of_xobject hx
      exact hm.readForm (Scope.holds_formStream hheld hstream) hread

/-- **A form that is found is the form of a stream that a scope names.** -/
theorem form_of_xobject {f : Form} {m m' : Memory}
    (h : S.xobject? lib name m = (.ok (some (.form f)), m')) :
    ∃ s ∈ S, ∃ stream, s.formStream? lib name = some stream ∧
      f.anonymous = Form.ofStream lib stream := by
  obtain ⟨s, hs, m₀, hfound⟩ := mem_of_find h
  obtain ⟨stream, hstream, hread⟩ := Scope.read_of_xobject hfound
  obtain ⟨g, m₁, hg, hform⟩ := Form.read_anonymous lib stream m₀
  cases hread.symm.trans hg
  exact ⟨s, hs, stream, hstream, hform⟩

end Scopes

end PdfScene
