import PdfScene.Proofs.Content.Step

/-!
# Machines that content leads to

Not every machine is one that reading content can lead to. `Machine.Reached` are those that can be
reached, and where content is read for its shapes they are all `Machine.InShapes`: no text object is
open, since those are for reading text, and a path without segments has no point to go on from. Both
hold at the start and are kept by one operation, hence by all of them.
-/

set_option autoImplicit false

namespace PdfScene

/-! ## Tidy paths -/

namespace Path

/-- A path without segments is the empty one: it has no point to go on from. -/
def Tidy (p : Path) : Prop := p.isEmpty = true → p = .empty

theorem Tidy.empty : Path.empty.Tidy := fun _ => rfl

theorem tidy_of_push {segments : Array Segment} {s : Segment} {current start : Option Point} :
    Tidy ⟨segments.push s, current, start⟩ := fun h => by simp [isEmpty] at h

theorem tidy_moveTo (p : Path) (q : Point) : (p.moveTo q).Tidy := tidy_of_push

theorem tidy_lineTo (p : Path) (q : Point) : (p.lineTo q).Tidy := by
  unfold lineTo
  cases p.current with
  | none => exact tidy_moveTo p q
  | some _ => exact tidy_of_push

theorem tidy_curveTo (p : Path) (c1 c2 q : Point) : (p.curveTo c1 c2 q).Tidy := by
  unfold curveTo
  cases p.current <;> exact tidy_of_push

theorem Tidy.close {p : Path} (h : p.Tidy) : p.close.Tidy := by
  unfold Path.close
  split
  · exact h
  · rename_i hcurrent
    split
    -- closed already: without segments there would be no current point either
    · intro hempty
      have hp := h hempty
      rw [hp] at hcurrent
      cases hcurrent
    · exact tidy_of_push

theorem tidy_rect (p : Path) (x y width height : Float) : (p.rect x y width height).Tidy :=
  (tidy_lineTo _ _).close

end Path

/-- A segment leaves a path tidy. -/
theorem Operation.segment_tidy {o : Operation} {p p' : Path} (h : p.Tidy)
    (hp : o.segment p = .ok p') : p'.Tidy := by
  unfold Operation.segment Operation.segment? at hp
  split at hp <;> simp only [Option.getD_some, Option.getD_none] at hp
  · cases hq : o.point 0 <;> rw [hq] at hp <;> cases hp
    exact Path.tidy_moveTo p _
  · cases hq : o.point 0 <;> rw [hq] at hp <;> cases hp
    exact Path.tidy_lineTo p _
  · cases h1 : o.point 0 <;> rw [h1] at hp <;> cases h2 : o.point 2 <;> rw [h2] at hp <;>
      cases h3 : o.point 4 <;> rw [h3] at hp <;> cases hp
    exact Path.tidy_curveTo p _ _ _
  · cases h1 : o.point 0 <;> rw [h1] at hp <;> cases h2 : o.point 2 <;> rw [h2] at hp <;> cases hp
    exact Path.tidy_curveTo p _ _ _
  · cases h1 : o.point 0 <;> rw [h1] at hp <;> cases h2 : o.point 2 <;> rw [h2] at hp <;> cases hp
    exact Path.tidy_curveTo p _ _ _
  · cases hp
    exact h.close
  · cases h1 : o.point 0 <;> rw [h1] at hp <;> cases h2 : o.point 2 <;> rw [h2] at hp <;> cases hp
    exact Path.tidy_rect p _ _ _ _
  · cases hp
    exact h

/-! ## The invariant -/

namespace Machine

/-- A machine of a reading for shapes: no text object is open, and the path is tidy. -/
structure InShapes (m : Machine) : Prop where
  closed : m.block = none
  tidy : m.path.Tidy

/-- A machine that some operations lead to, from the start of some content. -/
def Reached (c : Context) (m : Machine) : Prop :=
  ∃ state ops mem, ((start state).performAll c ops mem).1 = .ok (.ok m)

variable {c : Context} {m n : Machine} {o : Operation} {mem : Memory}

theorem InShapes.start (state : GraphicsState) : (start state).InShapes := ⟨rfl, .empty⟩

/-- What changes neither the path nor the text object keeps the invariant. -/
theorem InShapes.congr (h : m.InShapes) (hblock : n.block = m.block) (hpath : n.path = m.path) :
    n.InShapes := ⟨hblock.trans h.closed, hpath ▸ h.tidy⟩

theorem InShapes.showText (h : m.InShapes) (record : Bool) (bs : Bytes) :
    (m.showText .shapes record bs).InShapes := by
  cases record <;> exact h.congr rfl rfl

theorem InShapes.shown {record : Bool} (h : m.InShapes) (hn : o.shown .shapes record m = .ok n) :
    n.InShapes := by
  rcases shown_rel (R := fun s t => s.InShapes ∧ t.InShapes)
    (fun _ _ _ h => ⟨h.1.congr rfl rfl, h.2.congr rfl rfl⟩)
    (fun bs _ _ h => ⟨h.1.showText record bs, h.2.showText record bs⟩)
    o ⟨h, h⟩ with ⟨fault, hm, _⟩ | ⟨s', _, hm, _, h'⟩
  · cases hn.symm.trans hm
  · cases hn.symm.trans hm
    exact h'.1

theorem InShapes.endPath (h : m.InShapes) (use : PathUse) : (m.endPath use).InShapes := by
  have hfinish : ∀ m' : Machine, m'.block = none → m'.finishPath.InShapes := by
    intro m' hm'
    unfold Machine.finishPath Machine.applyClip
    cases m'.pendingClip <;> exact ⟨hm', .empty⟩
  exact endPath_of_finishPath (fun _ => hfinish _ h.closed) fun _ => hfinish _ h.closed

theorem InShapes.splice (h : m.InShapes) (s : Scene) : (m.splice s).InShapes := by
  simp only [Machine.splice, h.closed]
  exact ⟨rfl, h.tidy⟩

/-- What is painted that is not a path keeps the invariant. -/
theorem InShapes.painted (h : m.InShapes) (hn : Painted c m n) : n.InShapes := by
  cases hn with
  | nothing => exact h
  | mark mark => exact h.congr rfl rfl
  | form _ => exact h.splice _

/-- **An operation keeps the invariant** of reading for shapes. -/
theorem InShapes.perform (hc : c.mode = .shapes) (h : m.InShapes)
    (hn : (m.perform c o).next? mem = some n) : n.InShapes := by
  rw [perform_eq, hc] at hn
  cases hkind : o.op.kind with
  | save => rw [hkind] at hn; cases hn; exact h.congr rfl rfl
  | restore =>
    rw [hkind] at hn
    cases hn
    unfold Machine.restore
    split <;> exact h.congr rfl rfl
  | beginText => rw [hkind] at hn; cases hn; exact h.congr rfl rfl
  | endText =>
    rw [hkind] at hn
    cases hn
    unfold Machine.endText
    rw [h.closed]
    exact h
  | dash =>
    rw [hkind] at hn
    dsimp only at hn
    rcases hd : o.dashes m.state with ⟨_ | fault, state⟩ <;> rw [hd] at hn <;> cases hn <;>
      exact h.congr rfl rfl
  | style =>
    rw [hkind] at hn
    obtain ⟨fault | state, -, hn⟩ := Run.next?_bind hn <;> cases hn <;> exact h.congr rfl rfl
  | segment =>
    rw [hkind] at hn
    simp only [reduceCtorEq, if_false] at hn
    cases hp : o.segment m.path <;> rw [hp] at hn <;> cases hn
    · exact h
    · exact ⟨h.closed, Operation.segment_tidy h.tidy hp⟩
  | endPath use => rw [hkind] at hn; cases hn; exact h.endPath use
  | clip rule => rw [hkind] at hn; cases hn; exact h.congr rfl rfl
  | text =>
    rw [hkind] at hn
    dsimp only at hn
    cases hshown : o.shown .shapes c.recordText m with
    | error fault => rw [hshown] at hn; cases hn; exact h
    | ok n' => rw [hshown] at hn; cases hn; exact h.shown hshown
  | object =>
    rw [hkind] at hn
    exact h.painted (painted_orReject (fun _ _ => painted_paintObject) hn)
  | shading =>
    rw [hkind] at hn
    simp only [reduceCtorEq, if_false] at hn
    exact h.painted (painted_orReject (fun _ _ => painted_paintShading) hn)
  | image =>
    rw [hkind] at hn
    simp only [reduceCtorEq, if_false] at hn
    exact h.painted (painted_orReject (fun _ _ => painted_paintInline) hn)

/-- Operations keep the invariant. -/
theorem InShapes.performAll {ops : List Operation} (hc : c.mode = .shapes) (h : m.InShapes)
    (hn : (m.performAll c ops mem).1 = .ok (.ok n)) : n.InShapes := by
  induction ops generalizing m mem with
  | nil => cases hn; exact h
  | cons o rest ih =>
    obtain ⟨m', hm', hn⟩ := next?_of_performAll hn
    exact ih (h.perform hc hm') hn

/-- **Every machine that is reached in a reading for shapes keeps the invariant.** -/
theorem Reached.inShapes (hc : c.mode = .shapes) (h : Reached c m) : m.InShapes := by
  obtain ⟨state, ops, mem, hm⟩ := h
  exact (InShapes.start state).performAll hc hm

end Machine

end PdfScene
