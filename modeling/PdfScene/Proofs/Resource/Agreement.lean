import PdfScene.Proofs.Resource.Remembering

/-!
# Agreement — readings of one resource from two memories

`Run.Agree` says of two computations that from any two sound memories they come to related answers, or
to the same panic, and leave sound memories. Each has scopes of its own, because the theorems that this
serves compare two readings of one content, and the scopes of a form are numbered anew each time the
form is read. The memories may be sound for more than those, as they are where other content has been
read before, and then stay so.

Every reader of a resource agrees with itself: colour spaces, patterns, shadings and parameters are
`Run.Steady`, which is to say that they come to equal answers (`Steady.compositional`); images come to
answers that are equal but for the number issued to an image that has none (`Image.anonymous`). Such a
number tells objects apart and means nothing else.
-/

set_option autoImplicit false

namespace PdfScene

/-! ## The relation and its rules -/

/-- From memories that are sound for some scopes and perhaps for more, two computations come to
related answers or to the same panic, and leave memories that are as sound. -/
def Run.Agree (lib : Library) (roots : List Dict) (S T : Scopes) {α β : Type} (R : α → β → Prop)
    (x : Run α) (y : Run β) : Prop :=
  ∀ F G m n, S ⊆ F → T ⊆ G → m.Sound lib roots F → n.Sound lib roots G →
    Panic.Rel R (x m).1 (y n).1 ∧ (x m).2.Sound lib roots F ∧ (y n).2.Sound lib roots G

/-- From sound memories, a computation always comes to the same answer. -/
abbrev Run.Steady (lib : Library) (roots : List Dict) (S T : Scopes) {α : Type} (x : Run α) :
    Prop :=
  Run.Agree lib roots S T Eq x x

namespace Run

variable {lib : Library} {roots : List Dict} {S T : Scopes} {α β γ δ : Type}

theorem Agree.pure {R : α → β → Prop} {a : α} {b : β} (h : R a b) :
    Agree lib roots S T R (Pure.pure a) (Pure.pure b) :=
  fun _ _ _ _ _ _ hm hn => ⟨.ok h, hm, hn⟩

theorem Agree.bind {R : α → β → Prop} {R' : γ → δ → Prop} {x : Run α} {y : Run β}
    {f : α → Run γ} {g : β → Run δ} (h : Agree lib roots S T R x y)
    (hf : ∀ a b, R a b → Agree lib roots S T R' (f a) (g b)) :
    Agree lib roots S T R' (x >>= f) (y >>= g) := by
  intro F G m n hF hG hm hn
  obtain ⟨hr, hm', hn'⟩ := h F G m n hF hG hm hn
  generalize hx : (x m).1 = a at hr
  generalize hy : (y n).1 = b at hr
  cases hr with
  | ok hr =>
    rw [bind_of_ok hx, bind_of_ok hy]
    exact hf _ _ hr F G _ _ hF hG hm' hn'
  | panic p =>
    rw [bind_of_error hx, bind_of_error hy]
    exact ⟨.panic p, hm', hn'⟩

/-- What is there without a memory. -/
theorem Agree.of {R : α → β → Prop} {r : Except Panic α} {r' : Except Panic β}
    (h : Panic.Rel R r r') : Agree lib roots S T R (Run.of r) (Run.of r') :=
  fun _ _ _ _ _ _ hm hn => ⟨h, hm, hn⟩

theorem Agree.mono {R R' : α → β → Prop} {x : Run α} {y : Run β}
    (h : Agree lib roots S T R x y) (hr : ∀ a b, R a b → R' a b) :
    Agree lib roots S T R' x y := fun F G m n hF hG hm hn =>
  ⟨(h F G m n hF hG hm hn).1.mono hr, (h F G m n hF hG hm hn).2⟩

theorem Steady.of (r : Except Panic α) : Steady lib roots S T (Run.of r) :=
  Agree.of (Panic.rel_eq_iff.mpr rfl)

theorem Steady.pure (a : α) : Steady lib roots S T (Pure.pure a : Run α) := Agree.pure rfl

theorem Steady.bind {x : Run α} {f : α → Run β} (h : Steady lib roots S T x)
    (hf : ∀ a, Steady lib roots S T (f a)) : Steady lib roots S T (x >>= f) :=
  Agree.bind h fun a _ hab => hab ▸ hf a

/-- From memories that are sound for the scopes and no more. -/
theorem Agree.run {R : α → β → Prop} {x : Run α} {y : Run β} {m n : Memory}
    (h : Agree lib roots S T R x y) (hm : m.Sound lib roots S) (hn : n.Sound lib roots T) :
    Panic.Rel R (x m).1 (y n).1 ∧ (x m).2.Sound lib roots S ∧ (y n).2.Sound lib roots T :=
  h S T m n (List.Subset.refl S) (List.Subset.refl T) hm hn

/-- A computation that leaves memories as sound as they are, if they are sound for some scopes. -/
def Keeps (lib : Library) (roots : List Dict) (S : Scopes) (x : Run α) : Prop :=
  ∀ F m, S ⊆ F → m.Sound lib roots F → (x m).2.Sound lib roots F

/-- What agrees with itself keeps memories sound. -/
theorem Agree.keeps {R : α → α → Prop} {x : Run α} (h : Agree lib roots S S R x x) :
    Keeps lib roots S x := fun F m hF hm => (h F F m m hF hF hm hm).2.1

theorem Keeps.pure (a : α) : Keeps lib roots S (Pure.pure a) := fun _ _ _ hm => hm

theorem Keeps.bind {x : Run α} {f : α → Run β} (hx : Keeps lib roots S x)
    (hf : ∀ a, Keeps lib roots S (f a)) : Keeps lib roots S (x >>= f) := by
  intro F m hF hm
  have hm' := hx F m hF hm
  rcases h : (x m).1 with p | a
  · rw [bind_of_error h]
    exact hm'
  · rw [bind_of_ok h]
    exact hf a F _ hF hm'

theorem Agree.issueId :
    Agree lib roots S T (fun _ _ => True) Memory.issueId Memory.issueId :=
  fun _ _ _ _ _ _ hm hn => ⟨.ok trivial, hm.issueId, hn.issueId⟩

variable (hco : lib.Coherent roots)
include hco

theorem Steady.decode {s : StreamObj} (hs : lib.HoldsStream roots s) :
    Steady lib roots S T (Memory.decode lib.inflate s) := by
  intro F G m n _ _ hm hn
  obtain ⟨hval, hsound⟩ := hm.decode hco hs
  obtain ⟨hval', hsound'⟩ := hn.decode hco hs
  exact ⟨Panic.rel_eq_iff.mpr (hval.trans hval'.symm), hsound, hsound'⟩

/-- What is read by resolving and decoding alone is read alike from all sound memories. -/
theorem Steady.compositional :
    Compositional lib (lib.Holds roots) (Steady lib roots S T) where
  toClosed := Library.closed_holds lib roots
  pure := Steady.pure
  bind := Steady.bind
  decode := Steady.decode hco

end Run

/-! ## Images, up to the numbers issued -/

/-- The image without the number issued to it, if it has none of its own. -/
def Image.anonymous (i : Image) : Image := if i.ref.isNone then { i with id := 0 } else i

/-- Two images that differ in the number issued to them at most. -/
def Image.Alike (i j : Image) : Prop := i.anonymous = j.anonymous

/-- The same error, or images of a stream that differ in the number issued to them at most. -/
def Image.ReadAlike (s : StreamObj) : Except Error Image → Except Error Image → Prop
  | .ok i, .ok j => i.Alike j ∧ i.stream = s
  | .error e, .error e' => e = e'
  | _, _ => False

theorem Image.Alike.eq_withId {i j : Image} (h : i.Alike j) : ∃ id, j = { i with id } := by
  refine ⟨j.id, ?_⟩
  have hi : { i.anonymous with id := j.id } = { i with id := j.id } := by
    unfold Image.anonymous; split <;> rfl
  have hj : { j.anonymous with id := j.id } = j := by
    unfold Image.anonymous; split <;> rfl
  rw [← hi, h, hj]

section

open Run

variable {lib : Library} {roots : List Dict} {S T : Scopes} (hco : lib.Coherent roots)
include hco

theorem Image.readSpace_agree {d : Dict} {named named' : String → Run (Option ColorSpace)}
    (h : lib.HoldsDict roots d)
    (hnamed : ∀ name, Agree lib roots S T Eq (named name) (named' name)) :
    Agree lib roots S T Eq (Image.readSpace lib d named) (Image.readSpace lib d named') := by
  have hgiven : ∀ space : Option ColorSpace,
      Steady lib roots S T (pure (space.getD ColorSpace.deviceGray)) := fun _ => Steady.pure _
  unfold Image.readSpace
  split
  · rename_i name _
    cases ColorSpace.ofDeviceName? name with
    | some space => exact hgiven _
    | none =>
      refine Agree.bind (hnamed name) fun space _ heq => ?_
      subst heq
      cases space <;> exact hgiven _
  · rename_i o _ ho
    exact ((Steady.compositional hco).colorSpace (h.get ho)).bind hgiven
  · exact hgiven _

/-- An image is read alike from two memories: what is issued is its number and nothing else. -/
theorem Image.read_agree {s : StreamObj} {named named' : String → Run (Option ColorSpace)}
    (h : lib.HoldsDict roots s.dict)
    (hnamed : ∀ name, Agree lib roots S T Eq (named name) (named' name)) :
    Agree lib roots S T (Image.ReadAlike s) (Image.read lib s named) (Image.read lib s named') := by
  unfold Image.read
  dsimp only
  cases Image.checkSize ((lib.int? s.dict "Width").getD 0) ((lib.int? s.dict "Height").getD 0) with
  | error e => exact Agree.pure rfl
  | ok _ =>
    have hspace : Agree lib roots S T Eq (some <$> Image.readSpace lib s.dict named)
        (some <$> Image.readSpace lib s.dict named') :=
      Agree.bind (Image.readSpace_agree hco h hnamed) fun _ _ heq => Agree.pure (congrArg some heq)
    cases hr : s.ref with
    | some r =>
      dsimp only
      split
      · exact Agree.pure ⟨rfl, rfl⟩
      · refine Agree.bind hspace fun _ _ heq => ?_
        subst heq
        exact Agree.pure ⟨rfl, rfl⟩
    | none =>
      dsimp only
      split
      · refine Agree.bind (Steady.pure none) fun _ _ heq => ?_
        subst heq
        exact Agree.bind Agree.issueId fun _ _ _ => Agree.pure ⟨rfl, rfl⟩
      · refine Agree.bind hspace fun _ _ heq => ?_
        subst heq
        exact Agree.bind Agree.issueId fun _ _ _ => Agree.pure ⟨rfl, rfl⟩

end

end PdfScene
