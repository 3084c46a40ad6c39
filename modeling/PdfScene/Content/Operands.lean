import PdfScene.Content.Operation
import PdfScene.Geometry.Path

/-!
# Operands

An operator states what its operands have to be. An operation with an operand of another kind is
rejected, and the reason names the first such operand.
-/

set_option autoImplicit false

namespace PdfScene.Operation

/-- The operand at a place, read as what is expected there. -/
def operand {α : Type} (o : Operation) (i : Nat) (expected : String) (read : Obj → Option α) :
    Except OperandFault α :=
  match (o.args[i]?).bind read with
  | some a => .ok a
  | none => .error (.wrongOperand i expected)

def num (o : Operation) (i : Nat) : Except OperandFault Float := o.operand i "number" Obj.num?

def name (o : Operation) (i : Nat) : Except OperandFault String := o.operand i "name" Obj.name?

def bytes (o : Operation) (i : Nat) : Except OperandFault Bytes := o.operand i "string" Obj.bytes?

def array (o : Operation) (i : Nat) : Except OperandFault (List Obj) :=
  o.operand i "array" Obj.array?

/-- The coordinates of a point from a place on. -/
def point (o : Operation) (i : Nat) : Except OperandFault Point := do
  let x ← o.num i
  let y ← o.num (i + 1)
  pure (x, y)

def matrix (o : Operation) : Except OperandFault (Affine Float) := do
  let (a, b) ← o.point 0
  let (c, d) ← o.point 2
  let (e, f) ← o.point 4
  pure ⟨a, b, c, d, e, f⟩

def nums (o : Operation) : Except OperandFault (List Float) :=
  match o.args.mapM Obj.num? with
  | some xs => .ok xs
  | none => .error (.wrongOperand 0 "number")

/-- The number of a choice that `read` knows. A number is cut off to an integer first. -/
def choice {α : Type} (o : Operation) (read : Int → Option α) : Except OperandFault α := do
  let n := floatToInt (← o.num 0)
  match read n with
  | some a => pure a
  | none => .error (.outOfRange n)

end PdfScene.Operation
