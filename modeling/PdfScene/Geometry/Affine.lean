import PdfScene.Number.Decimal
import PdfScene.Number.Scalar

/-!
# Affine transforms

Six numbers a … f send the point (x, y) to (a x + c y + e, b x + d y + f). A point is a row to the
left of its matrix, so the product of two transforms does the left one first: a form's matrix comes
before the matrix in effect where the form is used.
-/

set_option autoImplicit false

namespace PdfScene

/-- A transform of the plane. -/
structure Affine (α : Type) where
  a : α
  b : α
  c : α
  d : α
  e : α
  f : α

namespace Affine

variable {α : Type} [Scalar α]

/-- The transform that changes nothing. -/
def identity : Affine α := ⟨1, 0, 0, 1, 0, 0⟩

/-- The transform of the first six numbers of a list. -/
def ofList? : List α → Option (Affine α)
  | a :: b :: c :: d :: e :: f :: _ => some ⟨a, b, c, d, e, f⟩
  | _ => none

def toList (m : Affine α) : List α := [m.a, m.b, m.c, m.d, m.e, m.f]

def translate (x y : α) : Affine α := ⟨1, 0, 0, 1, x, y⟩

def scale (x y : α) : Affine α := ⟨x, 0, 0, y, 0, 0⟩

/-- A turn from the x axis toward the y axis. -/
def rotate [Angle α] (degrees : α) : Affine α :=
  ⟨Angle.cos degrees, Angle.sin degrees, -Angle.sin degrees, Angle.cos degrees, 0, 0⟩

/-- First `m`, then `n`. -/
def mul (m n : Affine α) : Affine α :=
  { a := m.a * n.a + m.b * n.c
    b := m.a * n.b + m.b * n.d
    c := m.c * n.a + m.d * n.c
    d := m.c * n.b + m.d * n.d
    e := m.e * n.a + m.f * n.c + n.e
    f := m.e * n.b + m.f * n.d + n.f }

instance : Mul (Affine α) := ⟨mul⟩

def det (m : Affine α) : α := m.a * m.d - m.b * m.c

/-- Determinants smaller than this, the distance from one to the next double, count as zero. -/
def smallestDet : α := Scalar.decimal 22204460492503131 32

/-- The transform that undoes `m`, unless `m` flattens the plane. -/
def invert? (m : Affine α) : Option (Affine α) :=
  let det := m.det
  if Scalar.abs det < smallestDet then none
  else
    let a := m.d / det
    let b := -m.b / det
    let c := -m.c / det
    let d := m.a / det
    some ⟨a, b, c, d, -(m.e * a + m.f * c), -(m.e * b + m.f * d)⟩

def apply (m : Affine α) (p : α × α) : α × α :=
  (m.a * p.1 + m.c * p.2 + m.e, m.b * p.1 + m.d * p.2 + m.f)

/-- The image of a distance, which no translation changes. -/
def applyVector (m : Affine α) (v : α × α) : α × α :=
  (m.a * v.1 + m.c * v.2, m.b * v.1 + m.d * v.2)

/-- Whether no number of one transform is further than `tolerance` from that of the other. -/
def near (m n : Affine α) (tolerance : α) : Bool :=
  (m.toList.zip n.toList).all fun (x, y) => Scalar.abs (x - y) ≤ tolerance

/-- Whether a transform is the identity, but for noise. -/
def isIdentity (m : Affine α) : Bool := m.near identity (Scalar.decimal 1 12)

/-- The six numbers in brackets. -/
def text (m : Affine Float) : String :=
  "[" ++ String.intercalate " " (m.toList.map Decimal.text) ++ "]"

end Affine

end PdfScene
