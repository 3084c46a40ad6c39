import Mathlib
import PdfScene.Geometry.Frame
import PdfScene.Proofs.Geometry.Extent

/-!
# Pages on their canvas

A page that is turned and zoomed comes to lie with its corner at the origin of the device and fills
the size that is stated for it, neither more nor less (`Frame.bounding?_shape`). Read over exact
scalars, both are sums over the two sides of the page, of which each counts with the length of its
image: the translation that brings the turned page back makes up for what reaches below zero
(`Frame.shift_eq`), and the size has one equation for right angles and all others (`Frame.size_eq`).

Of sine and cosine only that is asked which can be seen from the angle, so it may be any direction
between two right angles: `Frame.Heading`. Sine and cosine themselves are like that.
-/

set_option autoImplicit false

namespace PdfScene

namespace Frame

/-! ## Sides -/

/-- A side that points up or to the right reaches below zero nowhere. -/
theorem reach_of_pos {a side : ℝ} (ha : 0 < a) (hside : 0 < side) : min (a * side) 0 = 0 :=
  min_eq_right (mul_pos ha hside).le

/-- A side that points down or to the left reaches below zero with all its length. -/
theorem reach_of_neg {a side : ℝ} (ha : a < 0) (hside : 0 < side) : min (a * side) 0 = a * side :=
  min_eq_left (mul_neg_of_neg_of_pos ha hside).le

/-! ## Directions -/

section Heading

variable [Angle ℝ]

open Angle

/-- What is asked of the sine and cosine of an angle of less than one turn. At right angles they are
what they are; in between they have the signs of their quadrant, and the angle that is left to or
from the next right angle has them in its turn. -/
inductive Heading : ℝ → Prop
  | east (hcos : cos (0 : ℝ) = 1) (hsin : sin (0 : ℝ) = 0) : Heading 0
  | northEast {r : ℝ} (above : 0 < r) (below : r < 90) (hcos : 0 < cos r) (hsin : 0 < sin r)
      (hrest : cos (90 - r) = sin r) : Heading r
  | north (hcos : cos (90 : ℝ) = 0) (hsin : sin (90 : ℝ) = 1) : Heading 90
  | northWest {r : ℝ} (above : 90 < r) (below : r < 180) (hcos : cos r < 0) (hsin : 0 < sin r)
      (hrestCos : cos (180 - r) = -cos r) (hrestSin : sin (180 - r) = sin r) : Heading r
  | west (hcos : cos (180 : ℝ) = -1) (hsin : sin (180 : ℝ) = 0) : Heading 180
  | southWest {r : ℝ} (above : 180 < r) (below : r < 270) (hcos : cos r < 0) (hsin : sin r < 0)
      (hrestCos : cos (r - 180) = -cos r) (hrestSin : sin (r - 180) = -sin r) : Heading r
  | south (hcos : cos (270 : ℝ) = 0) (hsin : sin (270 : ℝ) = -1) : Heading 270
  | southEast {r : ℝ} (above : 270 < r) (below : r < 360) (hcos : 0 < cos r) (hsin : sin r < 0)
      (hrest : cos (r - 270) = -sin r) : Heading r

/-! ## The shift and the size -/

variable {r w h zoom : ℝ} {b : Rect ℝ}

/-- **A turned page is brought back by what reaches below zero.** -/
theorem shift_eq (hr : Heading r) (hw : 0 < w) (hh : 0 < h) :
    shift w h r = .translate (-(min (cos r * w) 0 + min (-sin r * h) 0))
      (-(min (sin r * w) 0 + min (cos r * h) 0)) := by
  cases hr with
  | east hcos hsin => simp [shift, hcos, hsin, hw.le, hh.le, Affine.identity, Affine.translate]
  | north hcos hsin | west hcos hsin | south hcos hsin => simp [shift, hcos, hsin, hw.le, hh.le]
  | northEast above below hcos hsin hrest =>
    have hshift : shift w h r = .translate (h * cos (90 - r)) 0 := by
      have h180 : r ≠ 180 := by linarith
      have h270 : r ≠ 270 := by linarith
      simp [shift, above.ne', below.ne, h180, h270, below]
    rw [hshift, hrest, reach_of_pos hcos hw, reach_of_neg (neg_neg_of_pos hsin) hh,
      reach_of_pos hsin hw, reach_of_pos hcos hh]
    congr 1 <;> ring
  | northWest above below hcos hsin hrestCos hrestSin =>
    have hshift : shift w h r =
        .translate (h * sin (180 - r) + w * cos (180 - r)) (h * cos (180 - r)) := by
      have h0 : r ≠ 0 := by linarith
      have h270 : r ≠ 270 := by linarith
      simp [shift, h0, above.ne', below.ne, h270, above.le, below]
    rw [hshift, hrestCos, hrestSin, reach_of_neg hcos hw, reach_of_neg (neg_neg_of_pos hsin) hh,
      reach_of_pos hsin hw, reach_of_neg hcos hh]
    congr 1 <;> ring
  | southWest above below hcos hsin hrestCos hrestSin =>
    have hshift : shift w h r =
        .translate (w * cos (r - 180)) (w * sin (r - 180) + h * cos (r - 180)) := by
      have h0 : r ≠ 0 := by linarith
      have h90 : r ≠ 90 := by linarith
      have hlt : ¬ r < 90 := by linarith
      simp [shift, h0, h90, above.ne', below.ne, hlt, above.le, below]
    rw [hshift, hrestCos, hrestSin, reach_of_neg hcos hw, reach_of_pos (neg_pos_of_neg hsin) hh,
      reach_of_neg hsin hw, reach_of_neg hcos hh]
    congr 1 <;> ring
  | southEast above below hcos hsin hrest =>
    have hshift : shift w h r = .translate 0 (w * cos (r - 270)) := by
      have h0 : r ≠ 0 := by linarith
      have h90 : r ≠ 90 := by linarith
      have h180 : r ≠ 180 := by linarith
      have hlt : ¬ r < 90 := by linarith
      have hlt' : ¬ r < 180 := by linarith
      simp [shift, h0, h90, h180, above.ne', hlt, hlt', above.le]
    rw [hshift, hrest, reach_of_pos hcos hw, reach_of_pos (neg_pos_of_neg hsin) hh,
      reach_of_neg hsin hw, reach_of_pos hcos hh]
    congr 1 <;> ring

/-- The smallest rectangle around a turned page, as the one around the image of a rectangle. -/
theorem bounds_eq (b : Rect ℝ) (r zoom : ℝ) :
    bounds b r zoom =
      ⟨min (cos r * (b.width * zoom)) 0 + min (-sin r * (b.height * zoom)) 0,
        min (sin r * (b.width * zoom)) 0 + min (cos r * (b.height * zoom)) 0,
        |cos r * (b.width * zoom)| + |-sin r * (b.height * zoom)|,
        |sin r * (b.width * zoom)| + |cos r * (b.height * zoom)|⟩ := by
  let page : Rect ℝ := ⟨0, 0, b.width * zoom, b.height * zoom⟩
  have hpoints : bounds b r zoom =
      (Rect.bounding? (page.corners.map (Affine.rotate r).apply)).getD .zero := by
    unfold bounds
    dsimp only
    congr 1
    apply Rect.bounding?_congr
    intro p
    simp [page, Rect.corners, Rect.right, Rect.top, Affine.rotate, Affine.apply_real]
    tauto
  rw [hpoints, Rect.bounding?_image]
  simp [page, Affine.rotate, Affine.apply_real]

/-- **The size of a page** is that of the rectangle around it, at right angles too. -/
theorem size_eq (hr : Heading r) (hw : 0 < b.width) (hh : 0 < b.height) (hzoom : 0 < zoom) :
    size b r zoom = (|cos r * (b.width * zoom)| + |-sin r * (b.height * zoom)|,
      |sin r * (b.width * zoom)| + |cos r * (b.height * zoom)|) := by
  have hw' := mul_pos hw hzoom
  have hh' := mul_pos hh hzoom
  have hbetween (h0 : r ≠ 0) (h90 : r ≠ 90) (h180 : r ≠ 180) (h270 : r ≠ 270) :
      size b r zoom = ((bounds b r zoom).width, (bounds b r zoom).height) := by
    simp [size, h0, h90, h180, h270]
  cases hr with
  | east hcos hsin | north hcos hsin | west hcos hsin | south hcos hsin =>
    simp [size, hcos, hsin, abs_of_pos hw', abs_of_pos hh']
  | northEast above below | northWest above below | southWest above below | southEast above below =>
    rw [hbetween (by linarith) (by linarith) (by linarith) (by linarith), bounds_eq]

/-! ## The page on the canvas -/

/-- The transform of a page whose shift is known. -/
theorem transform_eq {x y : ℝ} (h : shift b.width b.height r = .translate x y) :
    transform b r zoom =
      ⟨cos r * zoom, -(sin r * zoom), -(sin r * zoom), -(cos r * zoom),
        (x - (cos r * b.x - sin r * b.y)) * zoom,
        (bounds b r zoom).height - (y - (sin r * b.x + cos r * b.y)) * zoom⟩ := by
  unfold transform
  rw [h]
  simp only [List.foldl_cons, List.foldl_nil, Affine.mul_real, Affine.identity, Affine.translate,
    Affine.scale, Affine.rotate, Scalar.zero_real, Scalar.one_real, Affine.mk.injEq]
  refine ⟨?_, ?_, ?_, ?_, ?_, ?_⟩ <;> ring

/-- **A page lands exactly on its canvas**: the smallest rectangle around its corners on the device
starts at the origin and is as wide and as high as the size of the page. -/
theorem bounding?_shape (hr : Heading r) (hw : 0 < b.width) (hh : 0 < b.height) (hzoom : 0 < zoom) :
    Rect.bounding? (shape b r zoom) = some ⟨0, 0, (size b r zoom).1, (size b r zoom).2⟩ := by
  have hscaled (a side : ℝ) : min (a * zoom * side) 0 = min (a * side) 0 * zoom := by
    rw [min_mul_of_nonneg _ _ hzoom.le, zero_mul, mul_right_comm]
  -- what a side reaches below zero it makes up for when it is flipped
  have hflipped (a side : ℝ) :
      |a * (side * zoom)| + min (-(a * zoom) * side) 0 = -(min (a * side) 0 * zoom) := by
    rw [← hscaled, neg_mul, mul_comm side, ← mul_assoc]
    rcases le_total 0 (a * zoom * side) with hpos | hneg
    · rw [abs_of_nonneg hpos, min_eq_left (neg_nonpos.mpr hpos), min_eq_right hpos]
      ring
    · rw [abs_of_nonpos hneg, min_eq_right (neg_nonneg.mpr hneg), min_eq_left hneg]
      ring
  unfold shape
  rw [Rect.bounding?_image, transform_eq (shift_eq hr hw hh), size_eq hr hw hh hzoom, bounds_eq,
    Affine.apply_real]
  simp only [Option.some.injEq, Rect.mk.injEq]
  refine ⟨?_, ?_, ?_, ?_⟩
  · rw [← neg_mul, hscaled, hscaled]
    ring
  · linarith [hflipped (sin r) b.width, hflipped (cos r) b.height]
  · congr 2 <;> ring
  · rw [neg_mul, neg_mul, abs_neg, abs_neg]
    congr 2 <;> ring

end Heading

/-! ## Sine and cosine -/

/-- Sine and cosine themselves. -/
noncomputable instance exactAngle : Angle ℝ where
  sin := fun degrees => Real.sin (degrees * (Real.pi / 180))
  cos := fun degrees => Real.cos (degrees * (Real.pi / 180))

theorem sin_exact (r : ℝ) : Angle.sin r = Real.sin (r * (Real.pi / 180)) := rfl

theorem cos_exact (r : ℝ) : Angle.cos r = Real.cos (r * (Real.pi / 180)) := rfl

theorem heading_exact {r : ℝ} (h0 : 0 ≤ r) (h : r < 360) : Heading r := by
  have hpi := Real.pi_pos
  have hlt {p q : ℝ} (hpq : p < q) : p * (Real.pi / 180) < q * (Real.pi / 180) :=
    mul_lt_mul_of_pos_right hpq (by positivity)
  -- right angles in radians, and what is left to them
  have h90 : 90 * (Real.pi / 180) = Real.pi / 2 := by ring
  have h180 : 180 * (Real.pi / 180) = Real.pi := by ring
  have h270 : 270 * (Real.pi / 180) = Real.pi / 2 + Real.pi := by ring
  have h360 : 360 * (Real.pi / 180) = 2 * Real.pi := by ring
  rcases h0.eq_or_lt with rfl | h0
  · exact .east (by simp [cos_exact]) (by simp [sin_exact])
  rcases lt_trichotomy r 90 with hr | rfl | hr90
  · have hpos := hlt h0
    have hneg := hlt hr
    rw [zero_mul] at hpos
    rw [h90] at hneg
    refine .northEast h0 hr ?_ ?_ ?_
    · exact Real.cos_pos_of_mem_Ioo ⟨by linarith, hneg⟩
    · exact Real.sin_pos_of_pos_of_lt_pi hpos (by linarith)
    · rw [cos_exact, sub_mul, h90, Real.cos_pi_div_two_sub, sin_exact]
  · refine .north ?_ ?_
    · rw [cos_exact, h90, Real.cos_pi_div_two]
    · rw [sin_exact, h90, Real.sin_pi_div_two]
  rcases lt_trichotomy r 180 with hr | rfl | hr180
  · have hpos := hlt hr90
    have hneg := hlt hr
    rw [h90] at hpos
    rw [h180] at hneg
    refine .northWest hr90 hr ?_ ?_ ?_ ?_
    · exact Real.cos_neg_of_pi_div_two_lt_of_lt hpos (by linarith)
    · exact Real.sin_pos_of_pos_of_lt_pi (by linarith) hneg
    · rw [cos_exact, sub_mul, h180, Real.cos_pi_sub, cos_exact]
    · rw [sin_exact, sub_mul, h180, Real.sin_pi_sub, sin_exact]
  · exact .west (by rw [cos_exact, h180, Real.cos_pi]) (by rw [sin_exact, h180, Real.sin_pi])
  rcases lt_trichotomy r 270 with hr | rfl | hr270
  · have hpos := hlt hr180
    have hneg := hlt hr
    rw [h180] at hpos
    rw [h270] at hneg
    have hcos : Angle.cos (r - 180) = -Angle.cos r := by
      rw [cos_exact, sub_mul, h180, Real.cos_sub_pi, cos_exact]
    have hsin : Angle.sin (r - 180) = -Angle.sin r := by
      rw [sin_exact, sub_mul, h180, Real.sin_sub_pi, sin_exact]
    refine .southWest hr180 hr ?_ ?_ hcos hsin
    · exact Real.cos_neg_of_pi_div_two_lt_of_lt (by linarith) (by linarith)
    · have hrest : 0 < Angle.sin (r - 180) := by
        rw [sin_exact, sub_mul, h180]
        exact Real.sin_pos_of_pos_of_lt_pi (by linarith) (by linarith)
      linarith
  · refine .south ?_ ?_
    · rw [cos_exact, h270, Real.cos_add_pi, Real.cos_pi_div_two, neg_zero]
    · rw [sin_exact, h270, Real.sin_add_pi, Real.sin_pi_div_two]
  · have hpos := hlt hr270
    have hneg := hlt h
    rw [h270] at hpos
    rw [h360] at hneg
    refine .southEast hr270 h ?_ ?_ ?_
    · rw [cos_exact, ← Real.cos_two_pi_sub]
      exact Real.cos_pos_of_mem_Ioo ⟨by linarith, by linarith⟩
    · have hrest : 0 < Real.sin (2 * Real.pi - r * (Real.pi / 180)) :=
        Real.sin_pos_of_pos_of_lt_pi (by linarith) (by linarith)
      rw [Real.sin_two_pi_sub] at hrest
      rw [sin_exact]
      linarith
    · rw [cos_exact, sub_mul, h270, ← sub_sub, Real.cos_sub_pi, Real.cos_sub_pi_div_two, sin_exact]

/-- A page beside the origin, turned by a third of a right angle and shown at twice its size. -/
theorem bounding?_shape_tilted : Heading 30 ∧
    Rect.bounding? (shape ⟨10, 20, 200, 100⟩ (30 : ℝ) 2) =
      some ⟨0, 0, 200 * √3 + 100, 200 + 100 * √3⟩ := by
  have hr : Heading 30 := heading_exact (by norm_num) (by norm_num)
  have hcos : Angle.cos (30 : ℝ) = √3 / 2 := by
    rw [cos_exact, ← Real.cos_pi_div_six]
    congr 1
    ring
  have hsin : Angle.sin (30 : ℝ) = 1 / 2 := by
    rw [sin_exact, ← Real.sin_pi_div_six]
    congr 1
    ring
  refine ⟨hr, ?_⟩
  rw [bounding?_shape hr (by norm_num) (by norm_num) (by norm_num),
    size_eq hr (by norm_num) (by norm_num) (by norm_num), hcos, hsin]
  have hwidth : |√3 / 2 * (200 * 2)| + |-(1 / 2) * (100 * 2)| = 200 * √3 + 100 := by
    rw [abs_of_nonneg (by positivity), neg_mul, abs_neg, abs_of_nonneg (by norm_num)]
    ring
  have hheight : |1 / 2 * (200 * 2)| + |√3 / 2 * (100 * 2)| = 200 + 100 * √3 := by
    rw [abs_of_nonneg (by norm_num), abs_of_nonneg (by positivity)]
    ring
  exact congrArg some (congrArg₂ (Rect.mk 0 0) hwidth hheight)

end Frame

end PdfScene
