import PdfScene.Scene.Device

/-!
# What a device is asked for

Any device can be watched: it then paints as before and takes down in addition what it was asked for
(`Device.watched`). So what is said about the calls of a painting is said about every device, whichever
drawings fail on it.

Calls are `Orderly` if every saved state has been restored, if nothing but restoring came after a
drawing that failed, and if drawings came in the order in which a painting opens. Paintings are put
together in three ways, one after another, one drawing before others, and between a saved and a restored
state, and each of them leads from orderly calls to orderly calls.
-/

set_option autoImplicit false

namespace PdfScene

namespace Device

variable {σ : Type}

/-- What a device was asked for; of a drawing, what came of it. -/
inductive Call where
  | save
  | restore
  | draw (d : Drawing) (base : Affine Float) (result : Except Error Unit)

/-- The device that does the same and takes down what it was asked for. -/
def watched (device : Device σ) : Device (σ × List Call) where
  save := fun (s, calls) => (device.save s, calls ++ [.save])
  restore := fun (s, calls) => (device.restore s, calls ++ [.restore])
  draw := fun d base (s, calls) =>
    let (result, s) := device.draw d base s
    (result, (s, calls ++ [.draw d base result]))

/-! ## Orderly calls -/

/-- The drawings among some calls, with their transforms to device space. -/
def drawings : List Call → List (Drawing × Affine Float)
  | [] => []
  | .draw d base _ :: rest => (d, base) :: drawings rest
  | .save :: rest => drawings rest
  | .restore :: rest => drawings rest

@[simp] theorem drawings_append (a b : List Call) :
    drawings (a ++ b) = drawings a ++ drawings b := by
  fun_induction drawings a with
  | case1 => rfl
  | case2 d base result rest ih => simp [drawings, ih]
  | case3 rest ih => simp [drawings, ih]
  | case4 rest ih => simp [drawings, ih]

/-- What is saved is restored: each saved state once, the one that was saved last first, and nothing
that was not saved. -/
inductive Nested : List Call → Prop where
  | nil : Nested []
  | draw {rest : List Call} (d : Drawing) (base : Affine Float) (result : Except Error Unit) :
      Nested rest → Nested (.draw d base result :: rest)
  | saved {inner rest : List Call} :
      Nested inner → Nested rest → Nested (.save :: inner ++ .restore :: rest)

theorem Nested.append {a b : List Call} (ha : Nested a) (hb : Nested b) : Nested (a ++ b) := by
  induction ha with
  | nil => exact hb
  | draw d base result _ ih => exact ih.draw d base result
  | @saved inner rest hinner _ _ ih =>
    rw [List.append_assoc, List.cons_append]
    exact hinner.saved ih

/-- No drawing among some calls failed. -/
def Smooth (calls : List Call) : Prop := ∀ d base e, .draw d base (.error e) ∉ calls

theorem Smooth.append {a b : List Call} (ha : Smooth a) (hb : Smooth b) : Smooth (a ++ b) := by
  intro d base e hmem
  rcases List.mem_append.mp hmem with h | h
  · exact ha d base e h
  · exact hb d base e h

/-- How calls end: none failed, or one did and only restoring came after it. -/
inductive Halts : List Call → Except Error Unit → Prop where
  | done {calls : List Call} : Smooth calls → Halts calls (.ok ())
  | failed {before : List Call} (d : Drawing) (base : Affine Float) (e : Error) (levels : Nat) :
      Smooth before →
      Halts (before ++ .draw d base (.error e) :: List.replicate levels .restore) (.error e)

namespace Halts

variable {a b calls : List Call} {result : Except Error Unit}

theorem smooth (h : Halts calls (.ok ())) : Smooth calls := by
  cases h with
  | done h => exact h

theorem append (ha : Smooth a) (hb : Halts b result) : Halts (a ++ b) result := by
  cases hb with
  | done hb => exact .done (ha.append hb)
  | failed d base e levels hbefore =>
    rw [← List.append_assoc]
    exact .failed d base e levels (ha.append hbefore)

/-- Restoring may come after everything else. -/
theorem restore (h : Halts calls result) : Halts (calls ++ [.restore]) result := by
  cases h with
  | done h => exact .done (h.append (by simp [Smooth]))
  | failed d base e levels hbefore =>
    rw [List.append_assoc, List.cons_append, ← List.replicate_succ']
    exact .failed d base e (levels + 1) hbefore

end Halts

/-- Calls that save and restore in pairs, stop at the first failure, and make the opening drawings
first: all of them, or as many as there were when one failed. -/
structure Orderly (opening : List (Drawing × Affine Float)) (calls : List Call)
    (result : Except Error Unit) : Prop where
  nested : Nested calls
  halts : Halts calls result
  opens : opening <+: drawings calls ∨ result ≠ .ok () ∧ drawings calls <+: opening

namespace Orderly

variable {opening : List (Drawing × Affine Float)} {a b : List Call} {result : Except Error Unit}

theorem nothing : Orderly [] [] (.ok ()) where
  nested := .nil
  halts := .done (by simp [Smooth])
  opens := .inl List.nil_prefix

/-- Calls are orderly whatever they open with. -/
theorem anyhow (h : Orderly opening a result) : Orderly [] a result :=
  ⟨h.nested, h.halts, .inl List.nil_prefix⟩

/-- A drawing that fails is as far as an opening gets. -/
theorem failed (d : Drawing) (base : Affine Float) (e : Error) :
    Orderly ((d, base) :: opening) [.draw d base (.error e)] (.error e) where
  nested := .draw d base _ .nil
  halts := @Halts.failed [] d base e 0 (by simp [Smooth])
  opens := .inr ⟨by simp, by simp [drawings]⟩

theorem draw_append {d : Drawing} {base : Affine Float} (hb : Orderly opening b result) :
    Orderly ((d, base) :: opening) (.draw d base (.ok ()) :: b) result where
  nested := .draw d base (.ok ()) hb.nested
  halts := .append (a := [.draw d base (.ok ())]) (by simp [Smooth]) hb.halts
  opens := by
    unfold drawings
    exact hb.opens.imp (List.prefix_cons_inj _).mpr (And.imp_right (List.prefix_cons_inj _).mpr)

theorem append (ha : Orderly opening a (.ok ())) (hb : Orderly [] b result) :
    Orderly opening (a ++ b) result where
  nested := ha.nested.append hb.nested
  halts := .append ha.halts.smooth hb.halts
  opens := by
    rw [drawings_append]
    obtain hopens | ⟨hfailed, -⟩ := ha.opens
    · exact .inl (hopens.trans (List.prefix_append _ _))
    · exact absurd rfl hfailed

theorem saved (h : Orderly opening a result) :
    Orderly opening (.save :: a ++ [.restore]) result where
  nested := .saved h.nested .nil
  halts := .append (a := [.save]) (by simp [Smooth]) h.halts.restore
  opens := by
    rw [drawings_append, show drawings [Call.restore] = [] from rfl, List.append_nil]
    exact h.opens

end Orderly

end Device

/-! ## Paintings that are watched -/

namespace Painting

open Device

variable {σ : Type} (device : Device σ)

/-- A painting on a watched device goes as the one on the device itself, and the calls that it makes
are in some relation to its result. -/
def Makes (R : List Call → Except Error Unit → Prop) (watched : Painting (σ × List Call))
    (plain : Painting σ) : Prop :=
  ∀ s calls, ∃ made,
    watched (s, calls) = ((plain s).1, ((plain s).2, calls ++ made)) ∧ R made (plain s).1

variable {R : List Call → Except Error Unit → Prop} {opening : List (Drawing × Affine Float)}
  {p q : Painting (σ × List Call)} {p' q' : Painting σ}

theorem Makes.mono {R' : List Call → Except Error Unit → Prop} (h : Makes R p p')
    (hR : ∀ made result, R made result → R' made result) : Makes R' p p' := by
  intro s calls
  obtain ⟨made, hrun, hmade⟩ := h s calls
  exact ⟨made, hrun, hR _ _ hmade⟩

theorem makes_nothing : Makes (Orderly []) (nothing : Painting (σ × List Call)) nothing :=
  fun _ calls => ⟨[], by simp [nothing], .nothing⟩

theorem makes_draw (d : Drawing) (base : Affine Float) :
    Makes (fun made result => made = [.draw d base result]) (device.watched.draw d base)
      (device.draw d base) :=
  fun _ _ => ⟨_, rfl, rfl⟩

/-- One painting after the other makes the calls of both, or those of the first if that failed. -/
theorem Makes.andThen {P Q : List Call → Except Error Unit → Prop} (hp : Makes P p p')
    (hq : Makes Q q q') (hfailed : ∀ made e, P made (.error e) → R made (.error e))
    (happend : ∀ a b result, P a (.ok ()) → Q b result → R (a ++ b) result) :
    Makes R (p.andThen q) (p'.andThen q') := by
  intro s calls
  obtain ⟨a, hrunp, ha⟩ := hp s calls
  unfold Painting.andThen
  rw [hrunp]
  match hresult : p' s with
  | (.error e, s') =>
    rw [hresult] at ha
    exact ⟨a, rfl, hfailed a e ha⟩
  | (.ok (), s') =>
    rw [hresult] at ha
    obtain ⟨b, hrunq, hb⟩ := hq s' (calls ++ a)
    exact ⟨a ++ b, by rw [← List.append_assoc]; exact hrunq, happend a b _ ha hb⟩

theorem Makes.draw_andThen (d : Drawing) (base : Affine Float) (hq : Makes (Orderly opening) q q') :
    Makes (Orderly ((d, base) :: opening)) (Painting.andThen (device.watched.draw d base) q)
      (Painting.andThen (device.draw d base) q') := by
  refine (makes_draw device d base).andThen hq ?_ ?_
  · rintro _ e rfl
    exact .failed d base e
  · rintro _ b result rfl hb
    exact .draw_append hb

/-- A painting between a saved and a restored state makes its calls between the two. -/
theorem Makes.saved (hp : Makes R p p') :
    Makes (fun made result => ∃ inner, made = .save :: inner ++ [.restore] ∧ R inner result)
      (saved device.watched p) (saved device p') := by
  intro s calls
  obtain ⟨inner, hrun, hinner⟩ := hp (device.save s) (calls ++ [.save])
  refine ⟨.save :: inner ++ [.restore], ?_, inner, rfl, hinner⟩
  unfold Painting.saved
  rw [show device.watched.save (s, calls) = (device.save s, calls ++ [.save]) from rfl, hrun]
  simp [Device.watched]

/-- **Shapes are painted in orderly calls.** -/
theorem makes_shapes (base : Affine Float) (shapes : List Shape) :
    Makes (Orderly []) (Painting.shapes device.watched base shapes)
      (Painting.shapes device base shapes) := by
  induction shapes with
  | nil => exact makes_nothing
  | cons s rest ih =>
    unfold Painting.shapes
    split
    · exact ih
    · exact (ih.draw_andThen device _ base).mono fun _ _ => .anyhow

end Painting

end PdfScene
