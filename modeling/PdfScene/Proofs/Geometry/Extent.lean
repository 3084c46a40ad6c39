import Mathlib
import PdfScene.Geometry.Rect
import PdfScene.Proofs.Number.Exact

/-!
# Extents of transformed rectangles

Over exact scalars the extent of some points is what its name says: all of them are within it and each
of its sides touches one (`Rect.Extent.ofPoints?_eq_some_iff`). So it depends on which points there
are, not on their order or on how often each is met, and for the corners of a parallelogram it can be
written down (`Rect.bounding?_corners`). The image of a rectangle under a transform is a parallelogram
(`Rect.map_corners`), so the smallest rectangle around it is known too (`Rect.bounding?_image`).
-/

set_option autoImplicit false

namespace PdfScene

/-! ## Transforms, number by number -/

namespace Affine

variable (m n : Affine ℝ) (p : ℝ × ℝ)

theorem apply_real : m.apply p = (m.a * p.1 + m.c * p.2 + m.e, m.b * p.1 + m.d * p.2 + m.f) := rfl

theorem mul_real : m * n =
    ⟨m.a * n.a + m.b * n.c, m.a * n.b + m.b * n.d, m.c * n.a + m.d * n.c, m.c * n.b + m.d * n.d,
      m.e * n.a + m.f * n.c + n.e, m.e * n.b + m.f * n.d + n.f⟩ := rfl

end Affine

namespace Rect

/-! ## Extents -/

/-- The numbers of the extent are the least and the greatest coordinates of the points. -/
structure Extent.Around (e : Extent ℝ) (ps : List (ℝ × ℝ)) : Prop where
  left : IsLeast (Prod.fst '' {p | p ∈ ps}) e.minX
  bottom : IsLeast (Prod.snd '' {p | p ∈ ps}) e.minY
  right : IsGreatest (Prod.fst '' {p | p ∈ ps}) e.maxX
  top : IsGreatest (Prod.snd '' {p | p ∈ ps}) e.maxY

namespace Extent

variable {e e' : Extent ℝ} {ps qs : List (ℝ × ℝ)}

theorem Around.congr (h : e.Around ps) (hsame : ∀ p, p ∈ ps ↔ p ∈ qs) : e.Around qs := by
  have hset : {p | p ∈ qs} = {p | p ∈ ps} := Set.ext fun p => (hsame p).symm
  constructor <;> rw [hset]
  · exact h.left
  · exact h.bottom
  · exact h.right
  · exact h.top

theorem Around.eq (h : e.Around ps) (h' : e'.Around ps) : e = e' := by
  have hleft := h.left.unique h'.left
  have hbottom := h.bottom.unique h'.bottom
  have hright := h.right.unique h'.right
  have htop := h.top.unique h'.top
  cases e
  cases e'
  congr

theorem Around.singleton (p : ℝ × ℝ) : Around ⟨p.1, p.2, p.1, p.2⟩ [p] := by
  constructor <;> simp

theorem Around.add (h : e.Around ps) (q : ℝ × ℝ) : (e.add q).Around (q :: ps) := by
  have hset : {p | p ∈ q :: ps} = insert q {p | p ∈ ps} := Set.ext fun p => by simp
  constructor <;> rw [hset, Set.image_insert_eq]
  · change IsLeast _ (min e.minX q.1)
    exact min_comm e.minX q.1 ▸ h.left.insert q.1
  · change IsLeast _ (min e.minY q.2)
    exact min_comm e.minY q.2 ▸ h.bottom.insert q.2
  · change IsGreatest _ (max e.maxX q.1)
    exact max_comm e.maxX q.1 ▸ h.right.insert q.1
  · change IsGreatest _ (max e.maxY q.2)
    exact max_comm e.maxY q.2 ▸ h.top.insert q.2

theorem Around.foldl_add (h : e.Around ps) (qs : List (ℝ × ℝ)) :
    (qs.foldl Extent.add e).Around (ps ++ qs) := by
  induction qs generalizing e ps with
  | nil => simpa using h
  | cons q qs ih =>
    refine (ih (h.add q)).congr fun p => ?_
    simp only [List.mem_append, List.mem_cons]
    tauto

/-- **The extent of points** reaches from the least to the greatest of their coordinates. -/
theorem ofPoints?_eq_some_iff : ofPoints? ps = some e ↔ e.Around ps := by
  constructor
  · intro h
    cases ps with
    | nil => cases h
    | cons p ps =>
      obtain rfl := Option.some_inj.mp h
      exact (Around.singleton p).foldl_add ps
  · intro h
    cases ps with
    | nil =>
      obtain ⟨p, hp, -⟩ := h.left.1
      cases hp
    | cons p ps => exact congrArg some (((Around.singleton p).foldl_add ps).eq h)

end Extent

/-! ## The smallest rectangle around points -/

theorem bounding?_of_around {e : Extent ℝ} {ps : List (ℝ × ℝ)} (h : e.Around ps) :
    bounding? ps = some ⟨e.minX, e.minY, e.maxX - e.minX, e.maxY - e.minY⟩ := by
  rw [bounding?, Extent.ofPoints?_eq_some_iff.mpr h]
  rfl

/-- Order and repetition of points make no difference. -/
theorem bounding?_congr {ps qs : List (ℝ × ℝ)} (h : ∀ p, p ∈ ps ↔ p ∈ qs) :
    bounding? ps = bounding? qs := by
  cases he : Extent.ofPoints? ps with
  | some e =>
    have haround := Extent.ofPoints?_eq_some_iff.mp he
    rw [bounding?_of_around haround, bounding?_of_around (haround.congr h)]
  | none =>
    cases ps with
    | cons p ps => cases he
    | nil =>
      cases qs with
      | nil => rfl
      | cons q qs => cases (h q).mpr List.mem_cons_self

section Corners

variable (x a b : ℝ)

/-- Of the places that two steps lead to, each of them taken or not, the least is that of the steps
that go down. -/
theorem isLeast_corners : IsLeast {x + b, x + a + b, x + a, x} (x + (min a 0 + min b 0)) := by
  constructor
  · rcases min_choice a 0 with ha | ha <;> rcases min_choice b 0 with hb | hb <;> rw [ha, hb] <;>
      simp [add_assoc]
  · intro y hy
    have ha := min_le_left a 0
    have ha' := min_le_right a 0
    have hb := min_le_left b 0
    have hb' := min_le_right b 0
    rcases hy with rfl | rfl | rfl | rfl <;> linarith

theorem isGreatest_corners :
    IsGreatest {x + b, x + a + b, x + a, x} (x + (max a 0 + max b 0)) := by
  constructor
  · rcases max_choice a 0 with ha | ha <;> rcases max_choice b 0 with hb | hb <;> rw [ha, hb] <;>
      simp [add_assoc]
  · intro y hy
    have ha := le_max_left a 0
    have ha' := le_max_right a 0
    have hb := le_max_left b 0
    have hb' := le_max_right b 0
    rcases hy with rfl | rfl | rfl | rfl <;> linarith

end Corners

/-- The smallest rectangle around a parallelogram: each of its sides counts with its full length. -/
theorem bounding?_corners (p u v : ℝ × ℝ) :
    bounding? [p + v, p + u + v, p + u, p] =
      some ⟨p.1 + (min u.1 0 + min v.1 0), p.2 + (min u.2 0 + min v.2 0), |u.1| + |v.1|,
        |u.2| + |v.2|⟩ := by
  have hset : {q | q ∈ [p + v, p + u + v, p + u, p]} = {p + v, p + u + v, p + u, p} := by
    ext q
    simp
  have haround : Extent.Around ⟨p.1 + (min u.1 0 + min v.1 0), p.2 + (min u.2 0 + min v.2 0),
      p.1 + (max u.1 0 + max v.1 0), p.2 + (max u.2 0 + max v.2 0)⟩
      [p + v, p + u + v, p + u, p] := by
    constructor <;> rw [hset] <;> simp only [Set.image_insert_eq, Set.image_singleton]
    · exact isLeast_corners p.1 u.1 v.1
    · exact isLeast_corners p.2 u.2 v.2
    · exact isGreatest_corners p.1 u.1 v.1
    · exact isGreatest_corners p.2 u.2 v.2
  have hlength (a : ℝ) : |a| = max a 0 - min a 0 := by rw [max_sub_min_eq_abs', sub_zero]
  rw [bounding?_of_around haround, hlength u.1, hlength v.1, hlength u.2, hlength v.2]
  congr 2 <;> ring

/-- The image of a rectangle is a parallelogram. -/
theorem map_corners (r : Rect ℝ) (m : Affine ℝ) :
    r.corners.map m.apply =
      let p := m.apply (r.x, r.y)
      let u := (m.a * r.width, m.b * r.width)
      let v := (m.c * r.height, m.d * r.height)
      [p + v, p + u + v, p + u, p] := by
  change [m.apply (r.x, r.y + r.height), m.apply (r.x + r.width, r.y + r.height),
    m.apply (r.x + r.width, r.y), m.apply (r.x, r.y)] = _
  simp only [Affine.apply_real, Prod.mk_add_mk, List.cons.injEq, Prod.mk.injEq, and_true]
  refine ⟨⟨?_, ?_⟩, ⟨?_, ?_⟩, ⟨?_, ?_⟩⟩ <;> ring

/-- **The smallest rectangle around the image of a rectangle.** -/
theorem bounding?_image (r : Rect ℝ) (m : Affine ℝ) :
    bounding? (r.corners.map m.apply) =
      some ⟨(m.apply (r.x, r.y)).1 + (min (m.a * r.width) 0 + min (m.c * r.height) 0),
        (m.apply (r.x, r.y)).2 + (min (m.b * r.width) 0 + min (m.d * r.height) 0),
        |m.a * r.width| + |m.c * r.height|, |m.b * r.width| + |m.d * r.height|⟩ := by
  rw [map_corners, bounding?_corners]

end Rect

end PdfScene
