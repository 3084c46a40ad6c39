import PdfScene.Proofs.Resource.Remembering

/-!
# Inner and outer scopes

A name is looked up in one scope after the other, and the search ends at the first scope that makes
something of it. A scope that has no entry of the name is passed over as if it were not there
(`Kind.inScope_absent`). So is one whose entry is of no use: what it hides comes to light again
(`Kind.inScopes_eq_iff`), and an image may be found behind a form of the same name.

There are nine kinds of resources, and all of them are looked up in this way. What is said here is said
once for every `Kind`.
-/

set_option autoImplicit false

namespace PdfScene

/-! ## Kinds of resources -/

/-- The kinds of named resources, each with what a name of it stands for. -/
inductive Kind : Type → Type where
  | font : Kind Font
  | xobject : Kind XObject
  | image : Kind Image
  | form : Kind Form
  | pattern : Kind Pattern
  | shading : Kind Shading
  | parameters : Kind Parameters
  | colorSpace : Kind ColorSpace
  | property : Kind Dict

namespace Kind

variable (lib : Library) (name : String) {α : Type}

/-- The category of the names of a kind. -/
def category : Kind α → String
  | font => "Font"
  | xobject | image | form => "XObject"
  | pattern => "Pattern"
  | shading => "Shading"
  | parameters => "ExtGState"
  | colorSpace => "ColorSpace"
  | property => "Properties"

/-- Looks a name up in one scope. -/
def inScope {α : Type} (k : Kind α) (s : Scope) : Run (Option α) :=
  match k with
  | font => s.font? lib name
  | xobject => s.xobject? lib name
  | image => s.image? lib name
  | form => s.form? lib name
  | pattern => s.pattern? lib name
  | shading => s.shading? lib name
  | parameters => s.parameters? lib name
  | colorSpace => s.colorSpace? lib name
  | property => pure (s.property? lib name)

/-- Looks a name up in scopes, innermost first. -/
def inScopes {α : Type} (k : Kind α) (scopes : Scopes) : Run (Option α) :=
  match k with
  | font => scopes.font? lib name
  | xobject => scopes.xobject? lib name
  | image => scopes.image? lib name
  | form => scopes.form? lib name
  | pattern => scopes.pattern? lib name
  | shading => scopes.shading? lib name
  | parameters => scopes.parameters? lib name
  | colorSpace => scopes.colorSpace? lib name
  | property => pure (scopes.property? lib name)

end Kind

/-! ## Searching scopes -/

namespace Scopes

variable {α β : Type} {lookup : Scope → Run (Option α)} {s : Scope} {inner outer : Scopes} {m : Memory}

theorem find_some {a : α} {m' : Memory} (h : lookup s m = (.ok (some a), m')) :
    find lookup (s :: outer) m = (.ok (some a), m') :=
  Run.bind_of_eq h

theorem find_none {m' : Memory} (h : lookup s m = (.ok none, m')) :
    find lookup (s :: outer) m = find lookup outer m' :=
  Run.bind_of_eq h

theorem find_panic {p : Panic} {m' : Memory} (h : lookup s m = (.error p, m')) :
    find lookup (s :: outer) m = (.error p, m') := by
  rw [find, Run.bind_of_error (congrArg Prod.fst h), h]

/-- Scopes that leave no trace of a search in them are passed over. -/
theorem find_append (h : ∀ s ∈ inner, lookup s m = (.ok none, m)) :
    find lookup (inner ++ outer) m = find lookup outer m := by
  induction inner with
  | nil => rfl
  | cons s inner ih =>
    obtain ⟨hs, hinner⟩ := List.forall_mem_cons.mp h
    rw [List.cons_append, find_none hs]
    exact ih hinner

theorem find_pure (f : Scope → Option α) (scopes : Scopes) :
    find (fun s => pure (f s)) scopes = pure (scopes.findSome? f) := by
  induction scopes with
  | nil => rfl
  | cons s outer ih =>
    funext m
    cases hs : f s with
    | none =>
      have hnone : (pure (f s) : Run (Option α)) m = (.ok none, m) := by rw [hs]; rfl
      rw [find_none hnone, ih, List.findSome?_cons, hs]
    | some a =>
      have hsome : (pure (f s) : Run (Option α)) m = (.ok (some a), m) := by rw [hs]; rfl
      rw [find_some hsome, List.findSome?_cons, hs]
      rfl

/-- Where only some of the answers will do, a search comes to what it comes to where all of them do,
unless that is one that will not. -/
theorem find_part {part : α → Option β} {narrowed : Scope → Run (Option β)}
    (hnarrowed : ∀ s, narrowed s = (·.bind part) <$> lookup s) (scopes : Scopes) {b : β}
    (h : (find narrowed scopes m).1 = .ok (some b)) :
    ∃ a, (find lookup scopes m).1 = .ok (some a) ∧ (part a = some b ∨ part a = none) := by
  induction scopes generalizing m with
  | nil => cases h
  | cons s outer ih =>
    rcases hs : lookup s m with ⟨p | answer, m'⟩
    · have hpanic : narrowed s m = (.error p, m') := by
        rw [hnarrowed, Run.map_apply, hs]
        rfl
      rw [find_panic hpanic] at h
      cases h
    · have hpart : narrowed s m = (.ok (answer.bind part), m') := by
        rw [hnarrowed, Run.map_apply, hs]
        rfl
      cases answer with
      | none =>
        rw [find_none hpart] at h
        rw [find_none hs]
        exact ih h
      | some a =>
        rw [find_some hs]
        refine ⟨a, rfl, ?_⟩
        cases ha : part a with
        | none => exact .inr rfl
        | some b' =>
          rw [Option.bind_some, ha] at hpart
          rw [find_some hpart] at h
          exact .inl (Except.ok.inj h)

end Scopes

/-! ## Shadowing -/

def XObject.image? : XObject → Option Image
  | .image i => some i
  | .form _ => none

def XObject.form? : XObject → Option Form
  | .form f => some f
  | .image _ => none

/-- The image of a name is its external object, if that is an image. -/
theorem Scope.image?_eq (lib : Library) (name : String) (s : Scope) :
    s.image? lib name = (·.bind XObject.image?) <$> s.xobject? lib name := by
  funext m
  unfold Scope.image?
  rw [Run.map_apply]
  rcases hx : (s.xobject? lib name m).1 with p | _ | (image | form)
  · rw [Run.bind_of_error hx]
    rfl
  all_goals
    rw [Run.bind_of_ok hx]
    rfl

theorem Scope.form?_eq (lib : Library) (name : String) (s : Scope) :
    s.form? lib name = (·.bind XObject.form?) <$> s.xobject? lib name := by
  funext m
  unfold Scope.form?
  rw [Run.map_apply]
  rcases hx : (s.xobject? lib name m).1 with p | _ | (image | form)
  · rw [Run.bind_of_error hx]
    rfl
  all_goals
    rw [Run.bind_of_ok hx]
    rfl

/-- Fonts are remembered only under names that their scopes have entries of. -/
def Memory.FontsNamed (lib : Library) (scopes : Scopes) (m : Memory) : Prop :=
  ∀ s ∈ scopes, ∀ name font, ((s.id, name), font) ∈ m.fonts → s.entry? lib "Font" name ≠ none

theorem Memory.Sound.fontsNamed {lib : Library} {roots : List Dict} {scopes : Scopes} {m : Memory}
    (h : m.Sound lib roots scopes) : m.FontsNamed lib scopes := by
  intro s hs name font hmem hnone
  have hfont := h.font hs hmem
  rw [Scope.fontAfresh, hnone] at hfont
  cases hfont

namespace Kind

variable {lib : Library} {name : String} {α : Type} {s : Scope} {inner outer : Scopes} {m : Memory}

theorem inScopes_eq_find (k : Kind α) (scopes : Scopes) :
    k.inScopes lib name scopes = scopes.find (k.inScope lib name) := by
  cases k with
  | property => exact (Scopes.find_pure _ scopes).symm
  | _ => rfl

/-- **A scope without an entry of a name is passed over**, and nothing is remembered of it. -/
theorem inScope_absent (k : Kind α) (hs : s.entry? lib k.category name = none)
    (hfonts : m.FontsNamed lib [s]) : k.inScope lib name s m = (.ok none, m) := by
  have hxobject (h : s.entry? lib "XObject" name = none) :
      s.xobject? lib name m = (.ok none, m) := by
    unfold Scope.xobject?
    rw [h]
    rfl
  cases k with
  | font =>
    have hnone : m.fonts.lookup (s.id, name) = none := by
      cases hfind : m.fonts.lookup (s.id, name) with
      | none => rfl
      | some font =>
        obtain ⟨before, after, hfonts', -⟩ := List.lookup_eq_some_iff.mp hfind
        have hmem : ((s.id, name), font) ∈ m.fonts := by simp [hfonts']
        exact absurd hs (hfonts s List.mem_cons_self name font hmem)
    change Scope.font? lib name s m = (.ok none, m)
    rw [Scope.font?_apply, hnone]
    change s.entry? lib "Font" name = none at hs
    rw [hs]
    rfl
  | xobject => exact hxobject hs
  | image =>
    change Scope.image? lib name s m = (.ok none, m)
    rw [Scope.image?_eq, Run.map_apply, hxobject hs]
    rfl
  | form =>
    change Scope.form? lib name s m = (.ok none, m)
    rw [Scope.form?_eq, Run.map_apply, hxobject hs]
    rfl
  | pattern =>
    change s.entry? lib "Pattern" name = none at hs
    simp only [inScope, Scope.pattern?, hs]
    rfl
  | shading =>
    change s.entry? lib "Shading" name = none at hs
    simp only [inScope, Scope.shading?, hs]
    rfl
  | parameters =>
    change s.entry? lib "ExtGState" name = none at hs
    simp only [inScope, Scope.parameters?, hs]
    rfl
  | colorSpace =>
    change s.entry? lib "ColorSpace" name = none at hs
    simp only [inScope, Scope.colorSpace?, hs]
    rfl
  | property =>
    change s.entry? lib "Properties" name = none at hs
    simp only [inScope, Scope.property?, hs]
    rfl

/-- Behind scopes that have no entry of a name, a scope decides what is found if it makes something of
the name, or a panic. If it makes nothing, the search goes on as if it had no entry either. -/
theorem inScopes_append (k : Kind α) (hfonts : m.FontsNamed lib inner)
    (hinner : ∀ t ∈ inner, t.entry? lib k.category name = none) :
    k.inScopes lib name (inner ++ s :: outer) m =
      match k.inScope lib name s m with
      | (.ok none, m') => k.inScopes lib name outer m'
      | found => found := by
  have hpassed : ∀ t ∈ inner, k.inScope lib name t m = (.ok none, m) := by
    intro t ht
    apply k.inScope_absent (hinner t ht)
    intro t' ht'
    obtain rfl := List.mem_singleton.mp ht'
    exact hfonts t' ht
  rw [inScopes_eq_find, Scopes.find_append hpassed]
  rcases hs : k.inScope lib name s m with ⟨p | _ | a, m'⟩
  · exact Scopes.find_panic hs
  · rw [Scopes.find_none hs, inScopes_eq_find]
  · exact Scopes.find_some hs

/-- What is found as the image of a name is its external object, unless that is a form. -/
theorem xobject_of_image {scopes : Scopes} {i : Image}
    (hi : (image.inScopes lib name scopes m).1 = .ok (some i)) :
    (xobject.inScopes lib name scopes m).1 = .ok (some (.image i)) ∨
      ∃ f, (xobject.inScopes lib name scopes m).1 = .ok (some (.form f)) := by
  obtain ⟨x, hx, hpart⟩ := Scopes.find_part (Scope.image?_eq lib name) scopes hi
  cases x with
  | image i' =>
    rcases hpart with hpart | hpart
    · cases hpart
      exact .inl hx
    · cases hpart
  | form f => exact .inr ⟨f, hx⟩

theorem xobject_of_form {scopes : Scopes} {f : Form}
    (hf : (form.inScopes lib name scopes m).1 = .ok (some f)) :
    (xobject.inScopes lib name scopes m).1 = .ok (some (.form f)) ∨
      ∃ i, (xobject.inScopes lib name scopes m).1 = .ok (some (.image i)) := by
  obtain ⟨x, hx, hpart⟩ := Scopes.find_part (Scope.form?_eq lib name) scopes hf
  cases x with
  | form f' =>
    rcases hpart with hpart | hpart
    · cases hpart
      exact .inl hx
    · cases hpart
  | image i => exact .inr ⟨i, hx⟩

/-- **When an inner scope shadows the outer ones.** Behind scopes that have no entry of a name, a scope
is all that counts if and only if it makes something of the name, or a panic, or no scope further out
does. What it makes of the name is then what is found, with all that is remembered of it; otherwise
what is found is what the scopes further out alone make of it. As the image of a name nothing is found
but the external object of that name, unless that is a form, and as its form nothing else, unless it is
an image. -/
theorem inScopes_eq_iff (lib : Library) (name : String) (m : Memory) :
    (∀ {α : Type} (k : Kind α) (inner : Scopes) (s : Scope) (outer : Scopes),
      m.FontsNamed lib inner → (∀ t ∈ inner, t.entry? lib k.category name = none) →
        ((k.inScopes lib name (inner ++ s :: outer) m).1 = (k.inScope lib name s m).1 ↔
          (k.inScope lib name s m).1 ≠ .ok none ∨
            (k.inScopes lib name outer (k.inScope lib name s m).2).1 = .ok none) ∧
        k.inScopes lib name (inner ++ s :: outer) m =
          match k.inScope lib name s m with
          | (.ok none, m') => k.inScopes lib name outer m'
          | found => found) ∧
      (∀ (scopes : Scopes) (i : Image), (image.inScopes lib name scopes m).1 = .ok (some i) →
        (xobject.inScopes lib name scopes m).1 = .ok (some (.image i)) ∨
          ∃ f, (xobject.inScopes lib name scopes m).1 = .ok (some (.form f))) ∧
      ∀ (scopes : Scopes) (f : Form), (form.inScopes lib name scopes m).1 = .ok (some f) →
        (xobject.inScopes lib name scopes m).1 = .ok (some (.form f)) ∨
          ∃ i, (xobject.inScopes lib name scopes m).1 = .ok (some (.image i)) := by
  refine ⟨?_, fun _ _ => xobject_of_image, fun _ _ => xobject_of_form⟩
  intro α k inner s outer hfonts hinner
  rw [k.inScopes_append hfonts hinner]
  rcases hs : k.inScope lib name s m with ⟨p | _ | a, m'⟩ <;> simp

/-- The resources of a scope that has one colour space. -/
def oneSpace (space : Obj) : Dict := [("ColorSpace", .dict [("C", space)])]

/-- A number is no colour space, and the colour space of the scope further out is found. -/
theorem inScopes_eq_iff_number :
    let inner : Scopes := [⟨0, []⟩]
    let s : Scope := ⟨1, oneSpace (.num 5)⟩
    let outer : Scopes := [⟨2, oneSpace (.name "DeviceRGB")⟩]
    let m := Memory.initial .empty 1
    m.FontsNamed .empty inner ∧ (∀ t ∈ inner, t.entry? .empty colorSpace.category "C" = none) ∧
      s.entry? .empty colorSpace.category "C" = some (.num 5) ∧
      (colorSpace.inScope .empty "C" s m).1 = .ok none ∧
      (colorSpace.inScopes .empty "C" (inner ++ s :: outer) m).1 = .ok (some .deviceRgb) := by
  intro inner s outer m
  have hfonts : m.FontsNamed .empty inner := by
    intro t _ name font hmem
    cases hmem
  have hinner : ∀ t ∈ inner, t.entry? .empty colorSpace.category "C" = none := by
    intro t ht
    obtain rfl := List.mem_singleton.mp ht
    rfl
  have hnone : colorSpace.inScope .empty "C" s m = (.ok none, m) := rfl
  refine ⟨hfonts, hinner, rfl, congrArg Prod.fst hnone, ?_⟩
  rw [((inScopes_eq_iff .empty "C" m).1 colorSpace inner s outer hfonts hinner).2, hnone]
  rfl

end Kind

end PdfScene
