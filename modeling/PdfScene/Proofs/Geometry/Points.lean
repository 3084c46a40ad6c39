import Mathlib
import PdfScene.Proofs.Geometry.Extent

/-!
# Rectangles as sets of points

A rectangle is a corner and two lengths, and what it stands for are the points between its sides. Over
exact scalars that is an interval of the plane, so two opposite corners make the same rectangle in
either order (`Rect.points_ofCorners`) and the overlap of two rectangles is the intersection of their
points: there is one if the intersection has an area (`Rect.intersection?_spec`).

The smallest rectangle around the image of a rectangle was computed from four corners. Its sides touch
the image of all points (`Rect.bounds_image`), since each coordinate of an image is a sum of two terms
that take their least and greatest values at the ends of a side.
-/

set_option autoImplicit false

namespace PdfScene

namespace Rect

open MeasureTheory

/-! ## Points -/

/-- The points of a rectangle, those on its sides among them. -/
def points (r : Rect ℝ) : Set (ℝ × ℝ) := Set.Icc (r.x, r.y) (r.right, r.top)

/-- No side has a negative length. -/
structure Upright (r : Rect ℝ) : Prop where
  width : 0 ≤ r.width
  height : 0 ≤ r.height

variable {r s : Rect ℝ}

theorem right_real (r : Rect ℝ) : r.right = r.x + r.width := rfl

theorem top_real (r : Rect ℝ) : r.top = r.y + r.height := rfl

theorem upright_ofCorners (x1 y1 x2 y2 : ℝ) : (ofCorners x1 y1 x2 y2).Upright :=
  ⟨abs_nonneg _, abs_nonneg _⟩

/-- Corners may come in any order. -/
theorem points_ofCorners (p q : ℝ × ℝ) : (ofCorners p.1 p.2 q.1 q.2).points = Set.uIcc p q := by
  have hfar (x y : ℝ) : min x y + |y - x| = max x y := by
    rw [← max_sub_min_eq_abs x y]
    ring
  have hright : (ofCorners p.1 p.2 q.1 q.2).right = max p.1 q.1 := hfar p.1 q.1
  have htop : (ofCorners p.1 p.2 q.1 q.2).top = max p.2 q.2 := hfar p.2 q.2
  rw [points, hright, htop]
  rfl

/-- The area of a rectangle is the product of its sides. -/
theorem volume_points (r : Rect ℝ) :
    volume r.points = ENNReal.ofReal r.width * ENNReal.ofReal r.height := by
  rw [points, ← Set.Icc_prod_Icc, Measure.volume_eq_prod, Measure.prod_prod, Real.volume_Icc,
    Real.volume_Icc, right_real, top_real, add_sub_cancel_left, add_sub_cancel_left]

/-! ## Overlaps -/

/-- The rectangle between the inner sides of two rectangles. Where they lie apart its sides have
negative lengths. -/
noncomputable def overlap (r s : Rect ℝ) : Rect ℝ :=
  ⟨max r.x s.x, max r.y s.y, min r.right s.right - max r.x s.x, min r.top s.top - max r.y s.y⟩

theorem points_overlap (r s : Rect ℝ) : (r.overlap s).points = r.points ∩ s.points := by
  have hright : (r.overlap s).right = min r.right s.right := add_sub_cancel _ _
  have htop : (r.overlap s).top = min r.top s.top := add_sub_cancel _ _
  rw [points, points, points, Set.Icc_inter_Icc, hright, htop]
  rfl

theorem intersection?_eq (r s : Rect ℝ) : r.intersection? s =
    if 0 < (r.overlap s).width ∧ 0 < (r.overlap s).height then some (r.overlap s) else none := by
  simp only [overlap, sub_pos]
  rfl

/-- **Two rectangles overlap if what they share has an area**, and then the overlap is what they
share. -/
theorem intersection?_spec (r s : Rect ℝ) :
    (0 < volume (r.points ∩ s.points) →
      ∃ t, r.intersection? s = some t ∧ t.Upright ∧ t.points = r.points ∩ s.points) ∧
    (volume (r.points ∩ s.points) = 0 → r.intersection? s = none) := by
  rw [← points_overlap, volume_points, intersection?_eq]
  constructor
  · intro harea
    obtain ⟨hwidth, hheight⟩ := CanonicallyOrderedAdd.mul_pos.mp harea
    rw [ENNReal.ofReal_pos] at hwidth hheight
    rw [if_pos ⟨hwidth, hheight⟩]
    exact ⟨_, rfl, ⟨hwidth.le, hheight.le⟩, rfl⟩
  · intro hflat
    rw [if_neg]
    rintro ⟨hwidth, hheight⟩
    rw [← ENNReal.ofReal_pos] at hwidth hheight
    exact (ENNReal.mul_pos hwidth.ne' hheight.ne').ne' hflat

/-! ## Bounds -/

/-- The rectangle leaves none of the points of a shape out, and each of its sides touches one. -/
structure Bounds (r : Rect ℝ) (shape : Set (ℝ × ℝ)) : Prop where
  left : IsLeast (Prod.fst '' shape) r.x
  bottom : IsLeast (Prod.snd '' shape) r.y
  right : IsGreatest (Prod.fst '' shape) r.right
  top : IsGreatest (Prod.snd '' shape) r.top

section Linear

variable {a c e x y w h t : ℝ}

/-- A slope lies between its ends, whether it goes up or down. -/
theorem slope_between (h0 : 0 ≤ t) (hw : t ≤ w) :
    min (a * w) 0 ≤ a * t ∧ a * t ≤ max (a * w) 0 := by
  rcases le_total 0 a with ha | ha
  · exact ⟨(min_le_right _ _).trans (mul_nonneg ha h0),
      (mul_le_mul_of_nonneg_left hw ha).trans (le_max_left _ _)⟩
  · exact ⟨(min_le_left _ _).trans (mul_le_mul_of_nonpos_left hw ha),
      (mul_nonpos_of_nonpos_of_nonneg ha h0).trans (le_max_right _ _)⟩

theorem exists_min_slope (hw : 0 ≤ w) (a : ℝ) : ∃ t, 0 ≤ t ∧ t ≤ w ∧ a * t = min (a * w) 0 := by
  rcases min_choice (a * w) 0 with heq | heq
  · exact ⟨w, hw, le_rfl, heq.symm⟩
  · exact ⟨0, le_rfl, hw, by rw [heq, mul_zero]⟩

theorem exists_max_slope (hw : 0 ≤ w) (a : ℝ) : ∃ t, 0 ≤ t ∧ t ≤ w ∧ a * t = max (a * w) 0 := by
  rcases max_choice (a * w) 0 with heq | heq
  · exact ⟨w, hw, le_rfl, heq.symm⟩
  · exact ⟨0, le_rfl, hw, by rw [heq, mul_zero]⟩

/-- The points of an interval are its lower corner and a step along each side. -/
theorem mem_steps {p : ℝ × ℝ} (hp : p ∈ Set.Icc (x, y) (x + w, y + h)) :
    ∃ s t, 0 ≤ s ∧ s ≤ w ∧ 0 ≤ t ∧ t ≤ h ∧ p = (x + s, y + t) := by
  obtain ⟨⟨hx, hy⟩, hx', hy'⟩ := hp
  refine ⟨p.1 - x, p.2 - y, sub_nonneg.mpr hx, ?_, sub_nonneg.mpr hy, ?_, ?_⟩
  · linarith
  · linarith
  · rw [add_sub_cancel, add_sub_cancel]

theorem steps_mem {s : ℝ} (h0 : 0 ≤ s) (hs : s ≤ w) (h0' : 0 ≤ t) (ht : t ≤ h) :
    (x + s, y + t) ∈ Set.Icc (x, y) (x + w, y + h) := by
  refine ⟨⟨?_, ?_⟩, ⟨?_, ?_⟩⟩ <;> simpa

variable (a c e x y)

theorem isLeast_linear (hw : 0 ≤ w) (hh : 0 ≤ h) :
    IsLeast ((fun p : ℝ × ℝ => a * p.1 + c * p.2 + e) '' Set.Icc (x, y) (x + w, y + h))
      (a * x + c * y + e + (min (a * w) 0 + min (c * h) 0)) := by
  constructor
  · obtain ⟨s, h0, hs, hleast⟩ := exists_min_slope hw a
    obtain ⟨t, h0', ht, hleast'⟩ := exists_min_slope hh c
    refine ⟨_, steps_mem h0 hs h0' ht, ?_⟩
    rw [← hleast, ← hleast']
    ring
  · rintro _ ⟨p, hp, rfl⟩
    obtain ⟨s, t, h0, hs, h0', ht, rfl⟩ := mem_steps hp
    have hfirst := (slope_between (a := a) h0 hs).1
    have hsecond := (slope_between (a := c) h0' ht).1
    show _ ≤ a * (x + s) + c * (y + t) + e
    linarith

theorem isGreatest_linear (hw : 0 ≤ w) (hh : 0 ≤ h) :
    IsGreatest ((fun p : ℝ × ℝ => a * p.1 + c * p.2 + e) '' Set.Icc (x, y) (x + w, y + h))
      (a * x + c * y + e + (max (a * w) 0 + max (c * h) 0)) := by
  constructor
  · obtain ⟨s, h0, hs, hgreatest⟩ := exists_max_slope hw a
    obtain ⟨t, h0', ht, hgreatest'⟩ := exists_max_slope hh c
    refine ⟨_, steps_mem h0 hs h0' ht, ?_⟩
    rw [← hgreatest, ← hgreatest']
    ring
  · rintro _ ⟨p, hp, rfl⟩
    obtain ⟨s, t, h0, hs, h0', ht, rfl⟩ := mem_steps hp
    have hfirst := (slope_between (a := a) h0 hs).2
    have hsecond := (slope_between (a := c) h0' ht).2
    show a * (x + s) + c * (y + t) + e ≤ _
    linarith

end Linear

theorem transformed_real (r : Rect ℝ) (m : Affine ℝ) : r.transformed m =
    ⟨m.a * r.x + m.c * r.y + m.e + (min (m.a * r.width) 0 + min (m.c * r.height) 0),
      m.b * r.x + m.d * r.y + m.f + (min (m.b * r.width) 0 + min (m.d * r.height) 0),
      |m.a * r.width| + |m.c * r.height|, |m.b * r.width| + |m.d * r.height|⟩ := by
  rw [transformed, bounding?_image]
  rfl

/-- **The image of a rectangle is bounded by the rectangle around its corners.** -/
theorem bounds_image (hr : r.Upright) (m : Affine ℝ) :
    (r.transformed m).Bounds (m.apply '' r.points) := by
  have hx : Prod.fst '' (m.apply '' r.points) =
      (fun p : ℝ × ℝ => m.a * p.1 + m.c * p.2 + m.e) '' r.points := Set.image_image _ _ _
  have hy : Prod.snd '' (m.apply '' r.points) =
      (fun p : ℝ × ℝ => m.b * p.1 + m.d * p.2 + m.f) '' r.points := Set.image_image _ _ _
  have hlength (a b : ℝ) : min a 0 + min b 0 + (|a| + |b|) = max a 0 + max b 0 := by
    rw [← sub_zero a, ← sub_zero b, ← max_sub_min_eq_abs', ← max_sub_min_eq_abs']
    simp only [sub_zero]
    ring
  rw [transformed_real]
  constructor
  · rw [hx]
    exact isLeast_linear m.a m.c m.e r.x r.y hr.width hr.height
  · rw [hy]
    exact isLeast_linear m.b m.d m.f r.x r.y hr.width hr.height
  · rw [hx, right_real]
    dsimp only
    rw [add_assoc, hlength]
    exact isGreatest_linear m.a m.c m.e r.x r.y hr.width hr.height
  · rw [hy, top_real]
    dsimp only
    rw [add_assoc, hlength]
    exact isGreatest_linear m.b m.d m.f r.x r.y hr.width hr.height

end Rect

end PdfScene
