import Mathlib.Logic.Relation
import PdfScene.Proofs.Content.Alike
import PdfScene.Proofs.Content.Reachable

/-!
# Moves — what operations do to the machine, taken apart

An operation saves the state, goes back to the one saved last, or makes moves. Different operations
make the same moves: they set the state, build the path, confine painting to it, paint, write down
text, or put in what comes of a form. `Machine.Move` lists these, and `Machine.perform_moves` says
that an operation does nothing else. An invariant of the machine is kept by all operations if saving
keeps it, and going back, and each move, which is a line or two for each.

Setting the state is one move, whatever is set: what it leaves alone is the clip.
-/

set_option autoImplicit false

namespace PdfScene

/-! ## Setting the state leaves the clip alone -/

/-- Settings leave the clip alone. -/
theorem Operation.setting_clip {o : Operation} {s s' : GraphicsState}
    (h : o.setting? s = some (.ok s')) : s'.clip = s.clip := by
  -- a setting neither looks at the clip nor changes it, so it keeps the one that the state has
  have hsame : (o.setting? s).map (Except.map (·.within (some s.clip))) = o.setting? s := by
    rw [← Operation.setting?_within]
    rfl
  rw [h] at hsame
  exact (congrArg GraphicsState.clip (Except.ok.inj (Option.some.inj hsame))).symm

theorem Operation.dashes_clip (o : Operation) (s : GraphicsState) :
    (o.dashes s).2.clip = s.clip := by
  unfold Operation.dashes
  cases o.operand 0 "dash array" Obj.numbers? with
  | error fault => rfl
  | ok dashes =>
    dsimp only
    cases o.num 1 <;> rfl

/-- An operation that sets part of the state leaves the clip alone. -/
theorem Context.style_clip {c : Context} {o : Operation} {s s' : GraphicsState} {mem : Memory}
    (h : (c.style o s mem).1 = .ok (.ok s')) : s'.clip = s.clip := by
  have hfault : ∀ {α : Type} {r : Except OperandFault α} {mem : Memory}
      {f : α → Run (Except OperandFault GraphicsState)},
      (∀ a, (f a mem).1 = .ok (.ok s') → s'.clip = s.clip) → (orFault r f mem).1 = .ok (.ok s') →
      s'.clip = s.clip := by
    intro α r mem f hf h
    cases r with
    | ok a => exact hf a h
    | error fault => cases h
  have hspace : ∀ (set : GraphicsState → ColorSpace → Paint → GraphicsState) (name : String),
      (∀ space paint, (set s space paint).clip = s.clip) →
      (c.withSpace s set name mem).1 = .ok (.ok s') → s'.clip = s.clip := by
    intro set name hset h
    obtain ⟨found, -, h⟩ := Run.bind_eq_ok_iff.mp h
    refine hfault (fun space h => ?_) h
    obtain ⟨color, -, h⟩ := Run.bind_eq_ok_iff.mp h
    cases h
    exact hset _ _
  have hcolor : ∀ (space : ColorSpace) (set : GraphicsState → ColorSpace → Paint → GraphicsState),
      (∀ space paint, (set s space paint).clip = s.clip) →
      (c.withColor o s space set mem).1 = .ok (.ok s') → s'.clip = s.clip := by
    intro space set hset h
    obtain ⟨fault | paint, -, h⟩ := Run.bind_eq_ok_iff.mp h <;> cases h
    exact hset _ _
  -- the setting is taken apart before it is run: a match that is applied does not split
  obtain ⟨x, hx⟩ : ∃ x, x = c.style o s := ⟨_, rfl⟩
  rw [← hx] at h
  unfold style at hx
  split at hx <;> subst hx
  · refine hfault (fun name h => ?_) h
    obtain ⟨_ | parameters, -, h⟩ := Run.bind_eq_ok_iff.mp h <;> cases h <;> rfl
  · refine hfault (fun _ h => ?_) h
    obtain ⟨font, -, h⟩ := Run.bind_eq_ok_iff.mp h
    cases h
    rfl
  · exact hfault (fun name => hspace _ name fun _ _ => rfl) h
  · exact hfault (fun name => hspace _ name fun _ _ => rfl) h
  · exact hcolor _ _ (fun _ _ => rfl) h
  · exact hcolor _ _ (fun _ _ => rfl) h
  · exact hcolor _ _ (fun _ _ => rfl) h
  · exact hcolor _ _ (fun _ _ => rfl) h
  · cases hr : o.setting? s with
    | none => rw [hr] at h; cases h; rfl
    | some r =>
      rw [hr] at h
      exact Operation.setting_clip (hr.trans (congrArg some (Except.ok.inj h)))

/-! ## Moves -/

namespace Machine

/-- One thing that is done to a machine, other than saving its state or going back to another. -/
inductive Move (c : Context) (m : Machine) : Machine → Prop where
  | setState {state : GraphicsState} : state.clip = m.state.clip → Move c m { m with state }
  | setPath {path : Path} : (m.path.Tidy → path.Tidy) → Move c m { m with path }
  | setPendingClip (pendingClip : Option FillRule) : Move c m { m with pendingClip }
  | applyClip : Move c m m.applyClip
  | paint (mark : Mark) : Move c m (m.paint mark)
  | setBlock (block : Option TextBlock) : Move c m { m with block }
  | endText : Move c m m.endText
  | splice {form : Form} {mem : Memory} {scene : Scene} :
      (c.invoke (form.usedIn c.scopes m.state) mem).1 = .ok scene → Move c m (m.splice scene)

/-- Any number of moves. -/
abbrev Moves (c : Context) : Machine → Machine → Prop := Relation.ReflTransGen (Move c)

open Relation.ReflTransGen (refl single)

variable {c : Context} {m n : Machine} {o : Operation} {mem : Memory}

theorem moves_withText (f : TextState → TextState) : Moves c m (m.withText f) :=
  single (.setState rfl)

theorem moves_showText (mode : Mode) (record : Bool) (bs : Bytes) :
    Moves c m (m.showText mode record bs) := by
  have hrecord : Moves c m (m.recordText mode record bs) := by
    unfold Machine.recordText
    cases mode with
    | text => exact single (.setBlock _)
    | shapes =>
      cases record with
      | false => exact refl
      | true => exact single (.paint _)
  exact hrecord.tail (.setState rfl)

theorem moves_shown {mode : Mode} {record : Bool} (hn : o.shown mode record m = .ok n) :
    Moves c m n := by
  rcases shown_rel (R := fun s t => Moves c m s ∧ Moves c m t)
    (fun f _ _ h => ⟨h.1.trans (moves_withText f), h.2.trans (moves_withText f)⟩)
    (fun bs _ _ h => ⟨h.1.trans (moves_showText mode record bs),
      h.2.trans (moves_showText mode record bs)⟩)
    o ⟨refl, refl⟩ with ⟨fault, hm, _⟩ | ⟨s', _, hm, _, h'⟩
  · cases hn.symm.trans hm
  · cases hn.symm.trans hm
    exact h'.1

theorem moves_finishPath : Moves c m m.finishPath :=
  (single .applyClip).tail (.setPath fun _ => .empty)

theorem moves_endPath (use : PathUse) : Moves c m (m.endPath use) := by
  have htidy : m.path.Tidy → (if use.close then m.path.close else m.path).Tidy := by
    intro h
    split
    · exact h.close
    · exact h
  rw [endPath_eq]
  dsimp only
  generalize (if use.close = true then m.path.close else m.path) = path at htidy
  split
  · exact (single (.setPath htidy)).trans moves_finishPath
  · exact ((single (.setPath htidy)).tail (.paint _)).trans moves_finishPath

theorem Painted.moves (h : Painted c m n) : Moves c m n := by
  cases h with
  | nothing => exact refl
  | mark mark => exact single (.paint mark)
  | form hscene => exact single (.splice hscene)

/-- **An operation saves the state, goes back to another or makes moves, and does nothing else**,
whether it is carried out or rejected. -/
theorem perform_moves (hn : (m.perform c o).next? mem = some n) :
    match o.op.kind with
    | .save => n = m.save
    | .restore => n = m.restore
    | _ => Moves c m n := by
  rw [perform_eq] at hn
  cases hkind : o.op.kind with
  | save => rw [hkind] at hn; cases hn; rfl
  | restore => rw [hkind] at hn; cases hn; rfl
  | beginText =>
    rw [hkind] at hn
    cases hn
    exact (moves_withText (·.setMatrix .identity)).tail (.setBlock _)
  | endText => rw [hkind] at hn; cases hn; exact single .endText
  | dash =>
    rw [hkind] at hn
    have hclip := o.dashes_clip m.state
    dsimp only at hn ⊢
    rcases hd : o.dashes m.state with ⟨_ | fault, state⟩ <;> rw [hd] at hn hclip <;> cases hn <;>
      exact single (.setState hclip)
  | style =>
    rw [hkind] at hn
    obtain ⟨fault | state, hstyle, hn⟩ := Run.next?_bind hn <;> cases hn
    · exact refl
    · exact single (.setState (Context.style_clip hstyle))
  | segment =>
    rw [hkind] at hn
    dsimp only at hn ⊢
    split at hn
    · cases hn; exact refl
    · cases hp : o.segment m.path <;> rw [hp] at hn <;> cases hn
      · exact refl
      · exact single (.setPath fun h => Operation.segment_tidy h hp)
  | endPath use =>
    rw [hkind] at hn
    cases hn
    dsimp only
    split
    · exact single (.setPendingClip none)
    · exact moves_endPath use
  | clip rule => rw [hkind] at hn; cases hn; exact single (.setPendingClip _)
  | text =>
    rw [hkind] at hn
    dsimp only at hn ⊢
    cases hshown : o.shown c.mode c.recordText m with
    | error fault => rw [hshown] at hn; cases hn; exact refl
    | ok n' => rw [hshown] at hn; cases hn; exact moves_shown hshown
  | object => rw [hkind] at hn; exact (painted_orReject (fun _ _ => painted_paintObject) hn).moves
  | shading =>
    rw [hkind] at hn
    dsimp only at hn ⊢
    split at hn
    · cases hn; exact refl
    · exact (painted_orReject (fun _ _ => painted_paintShading) hn).moves
  | image =>
    rw [hkind] at hn
    dsimp only at hn ⊢
    split at hn
    · cases hn; exact refl
    · exact (painted_orReject (fun _ _ => painted_paintInline) hn).moves

section

variable {P : Machine → Prop} (hsave : ∀ m, P m → P m.save) (hrestore : ∀ m, P m → P m.restore)
  (hmove : ∀ s t, Move c s t → P s → P t)
include hmove

theorem Moves.invariant (hmoves : Moves c m n) (h : P m) : P n := by
  induction hmoves with
  | refl => exact h
  | tail _ hlast ih => exact hmove _ _ hlast ih

include hsave hrestore

/-- What saving, going back and every move keep, an operation keeps. -/
theorem perform_invariant (h : P m) (hn : (m.perform c o).next? mem = some n) : P n := by
  have hmoves := perform_moves hn
  cases hkind : o.op.kind <;> rw [hkind] at hmoves
  case save => exact hmoves ▸ hsave m h
  case restore => exact hmoves ▸ hrestore m h
  all_goals exact Moves.invariant hmove hmoves h

/-- **What saving, going back and every move keep, all operations keep.** -/
theorem performAll_invariant {ops : List Operation} (h : P m)
    (hn : (m.performAll c ops mem).1 = .ok (.ok n)) : P n := by
  induction ops generalizing m mem with
  | nil => cases hn; exact h
  | cons o rest ih =>
    obtain ⟨m', hm', hn⟩ := next?_of_performAll hn
    exact ih (perform_invariant hsave hrestore hmove h hm') hn

end

/-! ## Shapes are only added -/

/-- Shapes that have been painted stay. -/
theorem Move.shapes_subset {s : Shape} (h : Move c m n) (hs : s ∈ m.scene.shapes) :
    s ∈ n.scene.shapes := by
  cases h with
  | applyClip => unfold Machine.applyClip; split <;> exact hs
  | paint mark => exact Array.mem_push.mpr (.inl hs)
  | endText =>
    unfold Machine.endText
    cases m.block with
    | none => exact hs
    | some block => dsimp only; split <;> exact hs
  | splice hscene =>
    have hin : ∀ added : Shapes, s ∈ m.scene.shapes ++ added := fun _ =>
      Array.mem_append.mpr (.inl hs)
    unfold Machine.splice
    cases m.block <;> exact hin _
  | _ => exact hs

/-- Operations leave the shapes that have been painted. -/
theorem performAll_shapes {ops : List Operation} {s : Shape}
    (hn : (m.performAll c ops mem).1 = .ok (.ok n)) (hs : s ∈ m.scene.shapes) : s ∈ n.scene.shapes := by
  have hrestore : ∀ m : Machine, s ∈ m.scene.shapes → s ∈ m.restore.scene.shapes := by
    intro m hs
    unfold Machine.restore
    split <;> exact hs
  exact performAll_invariant (P := fun m => s ∈ m.scene.shapes) (fun _ hs => hs) hrestore
    (fun _ _ => Move.shapes_subset) hs hn

/-! ## Saved states and tidy paths -/

/-- Moves leave alone what has been saved. -/
theorem Move.saved (h : Move c m n) : n.saved = m.saved := by
  cases h with
  | applyClip => unfold Machine.applyClip; split <;> rfl
  | endText =>
    unfold Machine.endText
    cases m.block <;> rfl
  | splice hscene => unfold Machine.splice; cases m.block <;> rfl
  | _ => rfl

theorem Move.tidy (h : Move c m n) (hm : m.path.Tidy) : n.path.Tidy := by
  cases h with
  | setPath hpath => exact hpath hm
  | applyClip => unfold Machine.applyClip; split <;> exact hm
  | endText => unfold Machine.endText; cases m.block <;> exact hm
  | splice hscene => unfold Machine.splice; cases m.block <;> exact hm
  | _ => exact hm

/-- Operations leave a tidy path tidy, whatever content is read for. -/
theorem performAll_tidy {ops : List Operation} (hm : m.path.Tidy)
    (hn : (m.performAll c ops mem).1 = .ok (.ok n)) : n.path.Tidy := by
  have hrestore : ∀ m : Machine, m.path.Tidy → m.restore.path.Tidy := by
    intro m hm
    unfold Machine.restore
    split <;> exact hm
  exact performAll_invariant (P := fun m => m.path.Tidy) (fun _ hm => hm) hrestore
    (fun _ _ => Move.tidy) hm hn

end Machine

end PdfScene
