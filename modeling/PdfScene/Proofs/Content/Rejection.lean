import PdfScene.Proofs.Content.Step

/-!
# Rejected operations

An operation with the wrong operands is dropped, and what follows it is carried out as if it had not
been there. That needs every operator to look at all of its operands before it changes anything.
`Machine.perform_rejected` says that all of them do, but for the one that sets the dashes of lines:
it sets the list first and then looks for the number that says where the list starts. An operation
of that operator with a good list and no such number is rejected and leaves the list behind, which
`Operation.leftBehind?` gives.
-/

set_option autoImplicit false

namespace PdfScene

/-- The dashes that an operation sets although it is rejected. -/
def Operation.leftBehind? (o : Operation) : Option (List Float) :=
  match o.op, o.operand 0 "dash array" Obj.numbers?, o.num 1 with
  | .setDash, .ok dashes, .error _ => some dashes
  | _, _, _ => none

namespace Machine

variable {c : Context} {m m' : Machine} {o : Operation} {mem : Memory} {fault : OperandFault}

def withDashes (m : Machine) (dashes : List Float) : Machine :=
  { m with state := { m.state with line := { m.state.line with dashes } } }

theorem withDashes_eq_self_iff {dashes : List Float} :
    m.withDashes dashes = m ↔ dashes = m.state.line.dashes :=
  ⟨fun h => congrArg (fun m : Machine => m.state.line.dashes) h, fun h => h ▸ rfl⟩

/-! ## What carries on is not rejected -/

theorem orReject_rejected {α : Type} {r : Except OperandFault α} {f : α → Run Outcome}
    (hf : ∀ a, (f a mem).1 = .ok (.rejected fault m') → m' = m)
    (h : (m.orReject r f mem).1 = .ok (.rejected fault m')) : m' = m := by
  cases r with
  | ok a => exact hf a h
  | error _ => cases h; rfl

theorem withState_rejected {r : Except OperandFault GraphicsState}
    (h : m.withState r = .rejected fault m') : m' = m := by
  cases r <;> cases h
  rfl

theorem withPath_rejected {r : Except OperandFault Path}
    (h : m.withPath r = .rejected fault m') : m' = m := by
  cases r <;> cases h
  rfl

theorem paintImage_not_rejected {image : Image} {inContent : Bool} :
    (m.paintImage c image inContent mem).1 ≠ .ok (.rejected fault m') := by
  intro h
  obtain ⟨data | data, -, h⟩ := Run.bind_eq_ok_iff.mp h
  · cases h
  · obtain ⟨pixels | pixels, -, h⟩ := Run.bind_eq_ok_iff.mp h <;> cases h

theorem paintInline_not_rejected {s : StreamObj} :
    (m.paintInline c s mem).1 ≠ .ok (.rejected fault m') := by
  intro h
  obtain ⟨e | image, -, h⟩ := Run.bind_eq_ok_iff.mp h
  · cases h
  · exact paintImage_not_rejected h

theorem paintObject_not_rejected {name : String} :
    (m.paintObject c name mem).1 ≠ .ok (.rejected fault m') := by
  intro h
  obtain ⟨_ | ⟨image⟩ | ⟨form⟩, -, h⟩ := Run.bind_eq_ok_iff.mp h
  · cases h
  · dsimp only at h
    split at h
    · exact paintImage_not_rejected h
    · cases h
  · obtain ⟨scene, -, h⟩ := Run.bind_eq_ok_iff.mp h
    cases h

theorem paintShading_not_rejected {name : String} :
    (m.paintShading c name mem).1 ≠ .ok (.rejected fault m') := by
  intro h
  obtain ⟨_ | shading, -, h⟩ := Run.bind_eq_ok_iff.mp h <;> cases h

/-! ## What a rejected operation leaves -/

theorem dashes_rejected {state : GraphicsState} (hop : o.op = .setDash)
    (h : o.dashes m.state = (some fault, state)) :
    { m with state } = m.withDashes (o.leftBehind?.getD m.state.line.dashes) := by
  unfold Operation.dashes at h
  unfold Operation.leftBehind?
  rw [hop]
  split at h
  · rename_i hdashes
    rw [hdashes]
    cases h
    rfl
  · rename_i dashes hdashes
    rw [hdashes]
    dsimp only at h
    cases hnum : o.num 1 with
    | ok x => rw [hnum] at h; cases h
    | error fault' => rw [hnum] at h; cases h; rfl

theorem leftBehind?_eq_none (h : o.op.kind ≠ .dash) : o.leftBehind? = none := by
  unfold Operation.leftBehind?
  split
  · rename_i hop _ _
    exact absurd (hop ▸ rfl) h
  · rfl

/-- A rejected operation leaves the machine as it was, with the dashes that it leaves behind. -/
theorem eq_of_rejected (h : (m.perform c o mem).1 = .ok (.rejected fault m')) :
    m' = m.withDashes (o.leftBehind?.getD m.state.line.dashes) := by
  rw [perform_eq] at h
  -- every other kind has looked at its operands before it has a machine to go on with
  by_cases hdash : o.op.kind = .dash
  · rw [hdash] at h
    dsimp only at h
    cases hd : o.dashes m.state with
    | mk answer state =>
      rw [hd] at h
      cases answer with
      | none => cases h
      | some fault' =>
        cases h
        exact dashes_rejected (Operator.eq_setDash hdash) hd
  · rw [leftBehind?_eq_none hdash]
    change m' = m
    cases hk : o.op.kind with
    | dash => exact absurd hk hdash
    | style =>
      rw [hk] at h
      obtain ⟨r, -, h⟩ := Run.bind_eq_ok_iff.mp h
      exact withState_rejected (Except.ok.inj h)
    | segment =>
      rw [hk] at h
      dsimp only at h
      split at h
      · cases h
      · exact withPath_rejected (Except.ok.inj h)
    | text => rw [hk] at h; exact orReject_rejected (fun _ h => by cases h) h
    | object =>
      rw [hk] at h
      exact orReject_rejected (fun _ h => absurd h paintObject_not_rejected) h
    | shading =>
      rw [hk] at h
      dsimp only at h
      split at h
      · cases h
      · exact orReject_rejected (fun _ h => absurd h paintShading_not_rejected) h
    | image =>
      rw [hk] at h
      dsimp only at h
      split at h
      · cases h
      · exact orReject_rejected (fun _ h => absurd h paintInline_not_rejected) h
    | _ => rw [hk] at h; cases h

/-- **What a rejected operation leaves** is the machine as it was, with the dashes that it leaves
behind if it does. So it has no effect unless they are other dashes than before. -/
theorem perform_rejected (h : (m.perform c o mem).1 = .ok (.rejected fault m')) :
    m' = m.withDashes (o.leftBehind?.getD m.state.line.dashes) ∧
      (m' = m ↔ ∀ dashes, o.leftBehind? = some dashes → dashes = m.state.line.dashes) := by
  have hleft := eq_of_rejected h
  refine ⟨hleft, ?_⟩
  rw [hleft, withDashes_eq_self_iff]
  cases o.leftBehind? with
  | none => simp
  | some dashes => simp

/-- `[3] /X d` is rejected for its second operand, and the machine is not what it was. -/
theorem perform_rejected_offset :
    let c : Context := ⟨.empty, .shapes, true, [], fun _ => pure .empty⟩
    let m := start .initial
    let o : Operation := ⟨.setDash, [.array [.num 3], .name "X"]⟩
    (m.perform c o (.initial .empty 1)).1 =
        .ok (.rejected (.wrongOperand 1 "number") (m.withDashes [3])) ∧
      m.withDashes [3] ≠ m := by
  intro c m o
  have h : (m.perform c o (.initial .empty 1)).1 =
      .ok (.rejected (.wrongOperand 1 "number") (m.withDashes [3])) := rfl
  refine ⟨h, fun heq => ?_⟩
  have hdashes : [3] = m.state.line.dashes := (perform_rejected h).2.mp heq [3] rfl
  cases hdashes

/-- Content goes on after a rejected operation as if it had not been there, if it leaves nothing
behind. -/
theorem performAll_rejected {rest : List Operation}
    (h : (m.perform c o mem).1 = .ok (.rejected fault m')) (hnone : o.leftBehind? = none) :
    m.performAll c (o :: rest) mem = m.performAll c rest (m.perform c o mem).2 := by
  have hm : m' = m := by rw [eq_of_rejected h, hnone]; rfl
  exact performAll_of_next? (Run.next?_of_result h (congrArg Except.ok hm))

end Machine

end PdfScene
