import Mathlib
import PdfScene.Document.Page
import PdfScene.Proofs.Document.Sheet
import PdfScene.Proofs.Resource.Lookup

/-!
# Appearances on their annotations

The form of an appearance has a space of its own: its box, once its matrix has moved it, may be any
parallelogram. What is brought onto the rectangle of the annotation are the bounds of that parallelogram,
by stretching and moving alone, and bounds go along with both (`Rect.transformed_mul_stretch`). So the
bounds of the box under all that its content starts with are the rectangle
(`Annotation.transformed_appearance`).

The numbers of a file are doubles and so is all that is computed from them. `Placing` holds those that
count here over any scalars: with doubles it computes the transform that a page sets up, and over exact
scalars the same definition says what that transform is for.
-/

set_option autoImplicit false

namespace PdfScene

/-! ## Bounds and stretching -/

namespace Rect

/-- **Bounds go along with stretching and moving.** -/
theorem transformed_mul_stretch (box : Rect ℝ) (m : Affine ℝ) {sx sy : ℝ} (e f : ℝ) (hx : 0 ≤ sx)
    (hy : 0 ≤ sy) :
    box.transformed (m * ⟨sx, 0, 0, sy, e, f⟩) =
      ⟨sx * (box.transformed m).x + e, sy * (box.transformed m).y + f,
        sx * (box.transformed m).width, sy * (box.transformed m).height⟩ := by
  have hreach {s : ℝ} (hs : 0 ≤ s) (a side : ℝ) : min (s * (a * side)) 0 = s * min (a * side) 0 := by
    rw [mul_min_of_nonneg _ _ hs, mul_zero]
  have hlength {s : ℝ} (hs : 0 ≤ s) (a side : ℝ) : |s * (a * side)| = s * |a * side| := by
    rw [abs_mul, abs_of_nonneg hs]
  have hside (a s side : ℝ) : a * s * side = s * (a * side) := by ring
  rw [transformed_real, transformed_real, Affine.mul_real]
  simp only [mul_zero, add_zero, zero_add, hside, hreach hx, hreach hy, hlength hx, hlength hy]
  congr 1 <;> ring

end Rect

/-! ## The numbers that count -/

/-- The numbers that say where an appearance comes to lie. -/
structure Placing (α : Type) where
  /-- The rectangle of the annotation. -/
  rect : Rect α
  /-- The box of the form, or the rectangle in its place. -/
  box : Rect α
  /-- The form's own matrix. -/
  matrix : Affine α

namespace Placing

section

variable {α : Type} [Scalar α] (lib : Library) (number : Float → α)

/-- The transform that an object is, its numbers read by `number`. -/
def affineOf? (o : Obj) : Option (Affine α) :=
  (lib.numbersOf? o).bind fun xs => Affine.ofList? (xs.map number)

/-- The entries of an annotation and of the stream of a form, their numbers read by `number`. -/
def read? (d form : Dict) : Option (Placing α) :=
  ((lib.get? d "Rect").bind (Leaf.rectOf? lib number)).map fun rect =>
    { rect
      box := ((lib.get? form "BBox").bind (Leaf.rectOf? lib number)).getD rect
      matrix := ((lib.get? form "Matrix").bind (affineOf? lib number)).getD .identity }

/-- The transform that the content of the form starts under. -/
def start (p : Placing α) : Affine α := p.matrix * Annotation.placement p.rect p.box p.matrix

end

/-- Read as they are, the numbers are those that an annotation and a form are made of. -/
theorem read?_doubles {lib : Library} {o : Obj} {a : Annotation} {s : StreamObj} {form : Form}
    {m m' : Memory} (ha : Annotation.read? lib o = some a)
    (hform : Form.read lib s m = (.ok form, m')) :
    ∃ d, (lib.resolve o).dict? = some d ∧
      read? lib (fun x => x) d s.dict = some ⟨a.rect, form.bbox.getD a.rect, form.matrix⟩ := by
  have hrect (d : Dict) (key : String) :
      (lib.get? d key).bind (Leaf.rectOf? lib fun x => x) = lib.rect? d key := by
    rw [Library.rect?, Library.numbers?, Option.bind_assoc]
    apply congrArg
    funext o
    simp only [Leaf.rectOf?, List.map_id']
  have hmatrix (d : Dict) (key : String) :
      (lib.get? d key).bind (affineOf? lib fun x => x) = lib.matrix? d key := by
    rw [Library.matrix?, Library.numbers?, Option.bind_assoc]
    apply congrArg
    funext o
    simp only [affineOf?, List.map_id']
  obtain ⟨form', m₁, hread, hanonymous⟩ := Form.read_anonymous lib s m
  cases hform.symm.trans hread
  have hbox : form.bbox = lib.rect? s.dict "BBox" := congrArg Form.bbox hanonymous
  have hown : form.matrix = (lib.matrix? s.dict "Matrix").getD .identity :=
    congrArg Form.matrix hanonymous
  unfold Annotation.read? at ha
  obtain ⟨d, hd, ha⟩ := Option.bind_eq_some_iff.mp ha
  obtain ⟨rect, hr, ha⟩ := Option.bind_eq_some_iff.mp ha
  obtain rfl := Option.some_inj.mp ha
  refine ⟨d, hd, ?_⟩
  rw [read?, hrect, hrect, hmatrix, hr, hbox, hown]
  rfl

/-- Whether there is a rectangle does not depend on how numbers are read. -/
theorem exists_read? {lib : Library} {d form : Dict} {p : Placing Float}
    (h : read? lib (fun x => x) d form = some p) (number : Float → ℝ) :
    ∃ p', read? lib number d form = some p' := by
  obtain ⟨rect, hrect, -⟩ := Option.map_eq_some_iff.mp h
  obtain ⟨o, ho, hr⟩ := Option.bind_eq_some_iff.mp hrect
  obtain ⟨_, _, ⟨items, x1, y1, x2, y2, more, hitems, hall, -⟩, -⟩ := Leaf.rectOf?_eq_some_iff.mp hr
  have hread : Leaf.rectOf? lib number o =
      some (.ofCorners (number x1) (number y1) (number x2) (number y2)) :=
    Leaf.rectOf?_eq_some_iff.mpr ⟨_, _, ⟨items, x1, y1, x2, y2, more, hitems, hall, rfl, rfl⟩, rfl⟩
  rw [read?, ho, Option.bind_some, hread]
  exact ⟨_, rfl⟩

theorem upright_of_read? {lib : Library} {number : Float → ℝ} {d form : Dict} {p : Placing ℝ}
    (h : read? lib number d form = some p) : p.rect.Upright ∧ p.box.Upright := by
  obtain ⟨rect, hrect, rfl⟩ := Option.map_eq_some_iff.mp h
  obtain ⟨o, -, ho⟩ := Option.bind_eq_some_iff.mp hrect
  refine ⟨Leaf.upright_of_rectOf? ho, ?_⟩
  cases hbox : (lib.get? form "BBox").bind (Leaf.rectOf? lib number) with
  | none => exact Leaf.upright_of_rectOf? ho
  | some box =>
    obtain ⟨o', -, ho'⟩ := Option.bind_eq_some_iff.mp hbox
    exact Leaf.upright_of_rectOf? ho'

/-- **The box fills the rectangle**, whatever the matrix turns it into. -/
theorem transformed_start {p : Placing ℝ} (hrect : p.rect.Upright)
    (hwidth : (p.box.transformed p.matrix).width ≠ 0)
    (hheight : (p.box.transformed p.matrix).height ≠ 0) :
    p.box.transformed p.start = p.rect := by
  have hwide : 0 ≤ (p.box.transformed p.matrix).width := by
    rw [Rect.transformed_real]
    positivity
  have hhigh : 0 ≤ (p.box.transformed p.matrix).height := by
    rw [Rect.transformed_real]
    positivity
  have hplacement : Annotation.placement p.rect p.box p.matrix =
      ⟨p.rect.width / (p.box.transformed p.matrix).width, 0, 0,
        p.rect.height / (p.box.transformed p.matrix).height,
        -(p.box.transformed p.matrix).x * (p.rect.width / (p.box.transformed p.matrix).width) +
          p.rect.x,
        -(p.box.transformed p.matrix).y * (p.rect.height / (p.box.transformed p.matrix).height) +
          p.rect.y⟩ := by
    unfold Annotation.placement
    simp [hwidth, hheight, Affine.mul_real, Affine.translate, Affine.scale]
  rw [start, hplacement, Rect.transformed_mul_stretch p.box p.matrix _ _
    (div_nonneg hrect.width hwide) (div_nonneg hrect.height hhigh)]
  congr 1
  · ring
  · ring
  · exact div_mul_cancel₀ _ hwidth
  · exact div_mul_cancel₀ _ hheight

end Placing

/-! ## Appearances -/

/-- The matrix of a form goes before the transform it is used under. -/
theorem Form.ctm_initialState (f : Form) : f.initialState.ctm = f.matrix * f.state.ctm := by
  unfold Form.initialState
  cases f.bbox <;> rfl

/-- **An appearance fills the rectangle of its annotation.** With doubles, the transform that the page
starts a form under is `Placing.start` of what the entries of both say. Over exact scalars, however the
doubles of the file are read, that transform takes the box to where its bounds are the rectangle, if the
matrix alone leaves it an extent either way. -/
theorem Annotation.transformed_appearance {lib : Library} {o : Obj} {a : Annotation} {s : StreamObj}
    {form : Form} {m m' : Memory} (ha : Annotation.read? lib o = some a)
    (hform : Form.read lib s m = (.ok form, m')) (scope : Scope) :
    ∃ d, (lib.resolve o).dict? = some d ∧
      (Placing.read? lib (fun x => x) d s.dict).map Placing.start =
        some (form.usedIn [scope] (.underCtm (a.appearanceMatrix form))).initialState.ctm ∧
      ∀ number : Float → ℝ, ∃ p, Placing.read? lib number d s.dict = some p ∧
        ((p.box.transformed p.matrix).width ≠ 0 → (p.box.transformed p.matrix).height ≠ 0 →
          p.box.transformed p.start = p.rect ∧ p.rect.Bounds (p.start.apply '' p.box.points)) := by
  obtain ⟨d, hd, hread⟩ := Placing.read?_doubles ha hform
  refine ⟨d, hd, ?_, fun number => ?_⟩
  · rw [hread, Form.ctm_initialState]
    rfl
  · obtain ⟨p, hp⟩ := Placing.exists_read? hread number
    obtain ⟨hrect, hbox⟩ := Placing.upright_of_read? hp
    refine ⟨p, hp, fun hwidth hheight => ?_⟩
    have hfills := Placing.transformed_start hrect hwidth hheight
    refine ⟨hfills, ?_⟩
    have hbounds := Rect.bounds_image hbox p.start
    rwa [hfills] at hbounds

/-- An annotation of 200 by 200. -/
def squareEntries : Dict := [("Rect", Leaf.wholeNumbers [100, 200, 300, 400])]

/-- A form of 50 by 100 that is turned over at the diagonal. -/
def turnedOver : StreamObj :=
  ⟨[("BBox", Leaf.wholeNumbers [0, 0, 50, 100]), ("Matrix", Leaf.wholeNumbers [0, 1, 1, 0, 7, 9])], [],
    none⟩

theorem Annotation.transformed_appearance_turnedOver :
    ∃ a form m', Annotation.read? .empty (.dict squareEntries) = some a ∧
      Form.read .empty turnedOver (.initial .empty 1) = (.ok form, m') ∧
      ∃ p, Placing.read? .empty Leaf.wholeNumber squareEntries turnedOver.dict = some p ∧
        p.rect = ⟨100, 200, 200, 200⟩ ∧ p.box = ⟨0, 0, 50, 100⟩ ∧ p.matrix = ⟨0, 1, 1, 0, 7, 9⟩ ∧
        p.box.transformed p.start = p.rect := by
  obtain ⟨a, ha⟩ : ∃ a, Annotation.read? .empty (.dict squareEntries) = some a := ⟨_, rfl⟩
  obtain ⟨d, hd, -, hexact⟩ :=
    Annotation.transformed_appearance ha (s := turnedOver) (m := .initial .empty 1) rfl ⟨0, []⟩
  obtain rfl : squareEntries = d := Option.some_inj.mp hd
  obtain ⟨p, hp, hfills⟩ := hexact Leaf.wholeNumber
  have hread : Placing.read? .empty Leaf.wholeNumber squareEntries turnedOver.dict =
      let n (k : Nat) : ℝ := Leaf.wholeNumber (Whole.double k)
      some ⟨.ofCorners (n 100) (n 200) (n 300) (n 400), .ofCorners (n 0) (n 0) (n 50) (n 100),
        ⟨n 0, n 1, n 1, n 0, n 7, n 9⟩⟩ := rfl
  have hsmall (k : Nat) (h : k < 2 ^ 53) : Leaf.wholeNumber (Whole.double k) = k :=
    Leaf.wholeNumber_double h
  simp only [hsmall 0 (by decide), hsmall 1 (by decide), hsmall 7 (by decide), hsmall 9 (by decide),
    hsmall 50 (by decide), hsmall 100 (by decide), hsmall 200 (by decide), hsmall 300 (by decide),
    hsmall 400 (by decide)] at hread
  obtain rfl := Option.some_inj.mp (hread.symm.trans hp)
  have hrect : Rect.ofCorners (100 : ℝ) 200 300 400 = ⟨100, 200, 200, 200⟩ := by
    norm_num [Rect.ofCorners]
  have hbox : Rect.ofCorners (0 : ℝ) 0 50 100 = ⟨0, 0, 50, 100⟩ := by
    norm_num [Rect.ofCorners]
  refine ⟨a, _, _, ha, rfl, _, hp, ?_⟩
  push_cast at hfills ⊢
  rw [hrect, hbox] at hfills ⊢
  refine ⟨rfl, rfl, rfl, (hfills ?_ ?_).1⟩
  · rw [Rect.transformed_real]
    norm_num
  · rw [Rect.transformed_real]
    norm_num

end PdfScene
