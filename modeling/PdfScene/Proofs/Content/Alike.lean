import PdfScene.Proofs.Content.Step
import PdfScene.Proofs.Resource.Lookup

/-!
# Content in two places

The same content may be read twice: for its shapes and for its text, or as a form and in the place
of the form. The two readings then see the same resources, perhaps under other numbers, and their
states are the same, perhaps but for the clip. `Context.Alike` and `GraphicsState.within` are these
two likenesses, and `Context.style_agree` says that setting the state keeps them.

A clip is given as an option, `none` for the clip that the state has. So what is said of states that
differ in the clip holds of equal states as the case of `none`.
-/

set_option autoImplicit false

namespace PdfScene

open Run

/-! ## States that differ in the clip -/

/-- The state within another clip, if one is given. -/
def GraphicsState.within (s : GraphicsState) (k : Option Clip) : GraphicsState :=
  { s with clip := k.getD s.clip }

namespace Operation

variable {o : Operation} {s : GraphicsState} {k : Option Clip}

theorem line_within {f : LineStyle → Except OperandFault LineStyle} :
    line (s.within k) f = (line s f).map (·.within k) := by
  unfold line
  change (do let line ← f s.line; _) = _
  cases f s.line <;> rfl

theorem text_within {f : TextState → Except OperandFault TextState} :
    text (s.within k) f = (text s f).map (·.within k) := by
  unfold text
  change (do let text ← f s.text; _) = _
  cases f s.text <;> rfl

/-- Settings neither look at the clip nor change it. -/
theorem setting?_within :
    o.setting? (s.within k) = (o.setting? s).map (Except.map (·.within k)) := by
  obtain ⟨op, args⟩ := o
  cases op with
  | transform =>
    simp only [setting?, Option.map_some]
    cases matrix _ <;> rfl
  | setStrokeGray | setFillGray | setStrokeRgb | setFillRgb | setStrokeCmyk | setFillCmyk =>
    simp only [setting?, Option.map_some]
    cases deviceColor _ _ <;> rfl
  | setLineWidth | setLineCap | setLineJoin | setMiterLimit => exact congrArg some line_within
  | setCharSpacing | setWordSpacing | setHorizontalScaling | setLeading | setRenderMode | setRise
  | moveText | moveTextSetLeading | setTextMatrix | nextLine => exact congrArg some text_within
  | _ => rfl

theorem dashes_within :
    o.dashes (s.within k) = ((o.dashes s).1, (o.dashes s).2.within k) := by
  unfold dashes
  cases o.operand 0 "dash array" Obj.numbers? with
  | error fault => rfl
  | ok dashes =>
    dsimp only
    cases o.num 1 <;> rfl

end Operation

/-! ## Contexts with the same resources -/

/-- Two contexts in which names mean the same. -/
structure Context.Alike (c d : Context) : Prop where
  lib : d.lib = c.lib
  scopes : c.scopes.Alike d.scopes

theorem Context.Alike.refl (c : Context) : c.Alike c := ⟨rfl, .refl c.scopes⟩

namespace Context

variable {c d : Context} {roots : List Dict} (hcd : c.Alike d) (hco : c.lib.Coherent roots)
include hcd hco

theorem colorSpace?_agree (name : String) :
    Agree c.lib roots c.scopes d.scopes Eq (c.colorSpace? name) (d.colorSpace? name) := by
  unfold colorSpace?
  rw [hcd.lib]
  cases ColorSpace.ofDeviceName? name with
  | some space => exact Agree.pure rfl
  | none =>
    refine Agree.bind (Scopes.colorSpace_agree hco name hcd.scopes) fun found _ heq => ?_
    subst heq
    cases found.or (ColorSpace.ofCalibratedName? name) <;> exact Agree.pure rfl

theorem pattern_agree (o : Operation) (color : List Float → Except Panic (Option Color)) :
    Agree c.lib roots c.scopes d.scopes Eq (c.pattern o color) (d.pattern o color) := by
  unfold pattern
  rw [hcd.lib]
  cases o.args.getLast?.bind Obj.name? with
  | none => exact Agree.pure rfl
  | some name =>
    refine Agree.bind (Scopes.pattern_agree hco name hcd.scopes) fun found _ heq => ?_
    subst heq
    cases found with
    | none => exact Agree.pure rfl
    | some pattern =>
      refine Agree.bind (Steady.of _) fun color _ heq => ?_
      subst heq
      exact Agree.pure rfl

theorem paint_agree (o : Operation) (space : ColorSpace) :
    Agree c.lib roots c.scopes d.scopes Eq (c.paint o space) (d.paint o space) := by
  unfold paint
  split
  · exact pattern_agree hcd hco o _
  · exact pattern_agree hcd hco o _
  · refine Agree.bind (Steady.of _) fun color _ heq => ?_
    subst heq
    exact Agree.pure rfl

/-- **Setting the state comes to the same in both places**, but for the clip, which stays what it
was. -/
theorem style_agree (o : Operation) (s : GraphicsState) (k : Option Clip) :
    Agree c.lib roots c.scopes d.scopes (fun r r' => r' = r.map (·.within k)) (c.style o s)
      (d.style o (s.within k)) := by
  have hfault : ∀ {α : Type} {r : Except OperandFault α}
      {f g : α → Run (Except OperandFault GraphicsState)},
      (∀ a, Agree c.lib roots c.scopes d.scopes (fun r r' => r' = r.map (·.within k)) (f a) (g a)) →
      Agree c.lib roots c.scopes d.scopes (fun r r' => r' = r.map (·.within k)) (orFault r f)
        (orFault r g) := by
    intro α r f g h
    cases r with
    | ok a => exact h a
    | error fault => exact Agree.pure rfl
  have hspace : ∀ set name, (∀ space paint, set (s.within k) space paint =
        GraphicsState.within (set s space paint) k) →
      Agree c.lib roots c.scopes d.scopes (fun r r' => r' = r.map (·.within k))
        (c.withSpace s set name) (d.withSpace (s.within k) set name) := by
    intro set name hset
    refine Agree.bind (colorSpace?_agree hcd hco name) fun r _ heq => ?_
    subst heq
    refine hfault fun space => ?_
    refine Agree.bind (Steady.of _) fun color _ heq => ?_
    subst heq
    exact Agree.pure (congrArg Except.ok (hset _ _))
  have hcolor : ∀ space set, (∀ space paint, set (s.within k) space paint =
        GraphicsState.within (set s space paint) k) →
      Agree c.lib roots c.scopes d.scopes (fun r r' => r' = r.map (·.within k))
        (c.withColor o s space set) (d.withColor o (s.within k) space set) := by
    intro space set hset
    refine Agree.bind (paint_agree hcd hco o space) fun r _ heq => ?_
    subst heq
    refine Agree.pure ?_
    cases r with
    | error fault => rfl
    | ok paint => exact congrArg Except.ok (hset _ _)
  unfold style
  split
  · refine hfault fun name => ?_
    unfold withParameters
    rw [hcd.lib]
    refine Agree.bind (Scopes.parameters_agree hco name hcd.scopes) fun p _ heq => ?_
    subst heq
    refine Agree.pure ?_
    cases p <;> rfl
  · refine hfault fun (name, size) => ?_
    unfold withFont
    rw [hcd.lib]
    refine Agree.bind (Scopes.font_agree hco name hcd.scopes) fun font _ heq => ?_
    subst heq
    exact Agree.pure rfl
  · exact hfault fun name => hspace _ name fun _ _ => rfl
  · exact hfault fun name => hspace _ name fun _ _ => rfl
  · exact hcolor _ _ fun _ _ => rfl
  · exact hcolor _ _ fun _ _ => rfl
  · exact hcolor _ _ fun _ _ => rfl
  · exact hcolor _ _ fun _ _ => rfl
  · refine Agree.pure ?_
    rw [Operation.setting?_within]
    cases o.setting? s <;> rfl

end Context

end PdfScene
