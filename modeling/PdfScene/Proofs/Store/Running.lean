import PdfScene.Store.Memory

/-!
# Running what may panic

A run comes to an answer or to a panic, and leaves a memory either way. What is done after it is done
with the answer, from the memory that is left, and after a panic nothing is (`Run.bind_of_ok`,
`Run.bind_of_error`). Two results come to the same in this sense if both are one panic or both are
answers, which may be related in any way (`Panic.Rel`); two runs do if their results do, from every
memory, and they leave it alike (`Run.Rel`).
-/

set_option autoImplicit false

namespace PdfScene

/-! ## Answers and panics -/

namespace Panic

/-- Both are the same panic, or both are answers that are related. -/
inductive Rel {α β : Type} (R : α → β → Prop) : Except Panic α → Except Panic β → Prop where
  | ok {a : α} {b : β} (h : R a b) : Rel R (.ok a) (.ok b)
  | panic (p : Panic) : Rel R (.error p) (.error p)

variable {α β : Type} {R R' : α → β → Prop}

theorem Rel.mono {x : Except Panic α} {y : Except Panic β} (h : Rel R x y)
    (hr : ∀ a b, R a b → R' a b) : Rel R' x y := by
  cases h with
  | ok h => exact .ok (hr _ _ h)
  | panic p => exact .panic p

theorem rel_eq_iff {x y : Except Panic α} : Rel Eq x y ↔ x = y := by
  constructor
  · rintro (rfl | _)
    · rfl
    · rfl
  · rintro rfl
    cases x with
    | ok a => exact .ok rfl
    | error p => exact .panic p

/-- What is apart from panics is there or is an error. -/
theorem apart_eq_ok_iff {r : Except Error α} {a : Except Error α} :
    apart r = .ok a ↔ r = a ∧ ∀ p, r ≠ .error (.panic p) := by
  rcases r with e | b
  · cases e <;> simp [apart]
  · simp [apart]

theorem apart_eq_error_iff {r : Except Error α} {p : Panic} :
    apart r = .error p ↔ r = .error (.panic p) := by
  rcases r with e | b
  · cases e <;> simp [apart]
  · simp [apart]

/-- Results that come to the same are the same. -/
theorem apart_inj {r r' : Except Error α} : apart r = apart r' ↔ r = r' := by
  constructor
  · intro h
    rcases hr : apart r with p | a
    · rw [hr] at h
      rw [apart_eq_error_iff.mp hr, apart_eq_error_iff.mp h.symm]
    · rw [hr] at h
      rw [(apart_eq_ok_iff.mp hr).1, (apart_eq_ok_iff.mp h.symm).1]
  · rintro rfl
    rfl

@[simp] theorem apart_ok (a : α) : apart (.ok a : Except Error α) = .ok (.ok a) := rfl

end Panic

/-! ## One after the other -/

namespace Run

variable {α β : Type} {x : Run α} {f : α → Run β} {m : Memory}

@[simp] theorem pure_apply (a : α) (m : Memory) : (pure a : Run α) m = (.ok a, m) := rfl

@[simp] theorem of_apply (r : Except Panic α) (m : Memory) : of r m = (r, m) := rfl

@[simp] theorem change_apply (g : Memory → Memory) (m : Memory) : change g m = (.ok (), g m) := rfl

/-- After an answer comes what is done with it. -/
theorem bind_of_ok {a : α} (h : (x m).1 = .ok a) : (x >>= f) m = f a (x m).2 := by
  have hbind : (x >>= f) m = ExceptT.bindCont f (x m).1 (x m).2 := rfl
  rw [hbind, h]
  rfl

/-- After a panic nothing comes. -/
theorem bind_of_error {p : Panic} (h : (x m).1 = .error p) :
    (x >>= f) m = (.error p, (x m).2) := by
  have hbind : (x >>= f) m = ExceptT.bindCont f (x m).1 (x m).2 := rfl
  rw [hbind, h]
  rfl

theorem bind_of_eq {a : α} {m' : Memory} (h : x m = (.ok a, m')) : (x >>= f) m = f a m' := by
  rw [bind_of_ok (congrArg Prod.fst h), h]

theorem bind_congr_apply {y : Run α} {m' : Memory} (h : x m = y m') : (x >>= f) m = (y >>= f) m' := by
  have hbind : (x >>= f) m = ExceptT.bindCont f (x m).1 (x m).2 := rfl
  rw [hbind, h]
  rfl

/-- What comes to an answer has come to one at every step. -/
theorem bind_eq_iff {b : β} {m' : Memory} :
    (x >>= f) m = (.ok b, m') ↔ ∃ a m₁, x m = (.ok a, m₁) ∧ f a m₁ = (.ok b, m') := by
  constructor
  · intro h
    rcases hx : x m with ⟨p | a, m₁⟩
    · rw [bind_of_error (congrArg Prod.fst hx)] at h
      cases h
    · rw [bind_of_eq hx] at h
      exact ⟨a, m₁, rfl, h⟩
  · rintro ⟨a, m₁, hx, hf⟩
    rw [bind_of_eq hx, hf]

theorem bind_eq_ok_iff {b : β} :
    ((x >>= f) m).1 = .ok b ↔ ∃ a, (x m).1 = .ok a ∧ (f a (x m).2).1 = .ok b := by
  rcases hx : (x m).1 with p | a
  · rw [bind_of_error hx]
    simp
  · rw [bind_of_ok hx]
    simp

theorem map_apply (g : α → β) (x : Run α) (m : Memory) :
    (g <$> x) m = (g <$> (x m).1, (x m).2) := by
  have hmap : g <$> x = x >>= fun a => pure (g a) := rfl
  rcases hx : (x m).1 with p | a
  · rw [hmap, bind_of_error hx]
    rfl
  · rw [hmap, bind_of_ok hx]
    rfl

theorem map_of_ok {g : α → β} {a : α} (h : (x m).1 = .ok a) : (g <$> x) m = (.ok (g a), (x m).2) :=
  bind_of_ok h

theorem map_of_error {g : α → β} {p : Panic} (h : (x m).1 = .error p) :
    (g <$> x) m = (.error p, (x m).2) :=
  bind_of_error h

/-! ## Side by side -/

variable {γ δ : Type} {R : α → β → Prop} {R' : γ → δ → Prop} {y : Run β}

/-- Two runs that, from one memory, leave one memory and come to related answers or to the same panic.
-/
def Rel (R : α → β → Prop) (x : Run α) (y : Run β) : Prop :=
  ∀ m, Panic.Rel R (x m).1 (y m).1 ∧ (x m).2 = (y m).2

theorem Rel.pure {a : α} {b : β} (h : R a b) : Rel R (Pure.pure a) (Pure.pure b) :=
  fun _ => ⟨.ok h, rfl⟩

theorem Rel.refl (x : Run α) : Rel Eq x x := fun _ => ⟨Panic.rel_eq_iff.mpr rfl, rfl⟩

theorem Rel.bind {f : α → Run γ} {g : β → Run δ} (h : Rel R x y)
    (hf : ∀ a b, R a b → Rel R' (f a) (g b)) : Rel R' (x >>= f) (y >>= g) := by
  intro m
  obtain ⟨hr, hm⟩ := h m
  generalize hx : (x m).1 = a at hr
  generalize hy : (y m).1 = b at hr
  cases hr with
  | ok hr =>
    rw [bind_of_ok hx, bind_of_ok hy, hm]
    exact hf _ _ hr _
  | panic p =>
    rw [bind_of_error hx, bind_of_error hy]
    exact ⟨.panic p, hm⟩

theorem Rel.mono {S : α → β → Prop} (h : Rel R x y) (hr : ∀ a b, R a b → S a b) : Rel S x y :=
  fun m => ⟨(h m).1.mono hr, (h m).2⟩

/-- One of two runs goes on to something that is made of its answer. -/
theorem Rel.then_pure {S : α → γ → Prop} {g : β → γ} (h : Rel R x y)
    (hr : ∀ a b, R a b → S a (g b)) : Rel S x (y >>= fun b => Pure.pure (g b)) := by
  rw [← bind_pure x]
  exact h.bind fun a b hab => Rel.pure (hr a b hab)

/-- A run beside what it begins with. -/
theorem Rel.bind_left {S : γ → α → Prop} {f : α → Run γ}
    (hf : ∀ a, Rel S (f a) (Pure.pure a)) : Rel S (x >>= f) x := by
  have h : Rel S (x >>= f) (x >>= Pure.pure) := (Rel.refl x).bind fun a _ hab => hab ▸ hf a
  rwa [bind_pure] at h

/-- Two runs that begin alike. -/
theorem Rel.bind_refl {f : α → Run γ} {g : α → Run δ} (hf : ∀ a, Rel R' (f a) (g a)) :
    Rel R' (x >>= f) (x >>= g) :=
  (Rel.refl x).bind fun a _ hab => hab ▸ hf a

end Run

end PdfScene
