import PdfScene.Proofs.Content.Moves
import PdfScene.Proofs.Content.Rereading

/-!
# Saved states

Operations between one that saves the state and the one that goes back to it leave no trace in the
state, and an operation that goes back to a state where none has been saved does nothing.
`Operation.outermost` leaves both out, and `Content.performAll_outermost` says that what is left
leads to the same state.

Saving keeps the state and nothing else. A path that is being built, and a clip that waits for its
end, are not given back, so they have to be gone wherever the state is saved or given back:
`Machine.SavesClear`.
-/

set_option autoImplicit false

namespace PdfScene

open Run

/-! ## Leaving operations out -/

namespace Operation

/-- What follows the operation that goes back to a state, with `depth` more saved since. -/
def afterRestore? (depth : Nat) : List Operation → Option (List Operation)
  | [] => none
  | o :: rest =>
    match o.balanced? depth with
    | none => some rest
    | some depth => afterRestore? depth rest

theorem afterRestore?_length {depth : Nat} {ops after : List Operation}
    (h : afterRestore? depth ops = some after) : after.length < ops.length := by
  induction ops generalizing depth with
  | nil => cases h
  | cons o rest ih =>
    unfold afterRestore? at h
    rw [List.length_cons]
    cases hdepth : o.balanced? depth <;> rw [hdepth] at h
    · cases h; exact Nat.lt_succ_self _
    · exact Nat.lt_succ_of_lt (ih h)

theorem balanced?_eq_none {o : Operation} {depth : Nat} :
    o.balanced? depth = none ↔ o.op.kind = .restore ∧ depth = 0 := by
  unfold balanced?
  cases o.op.kind <;> cases depth <;> simp

/-- What an operation does to the states saved last does not depend on how many are below. -/
theorem balanced?_add {o : Operation} {above depth : Nat} (h : o.balanced? above = some depth)
    (below : Nat) : o.balanced? (above + below) = some (depth + below) := by
  unfold balanced? at h ⊢
  cases hkind : o.op.kind <;> rw [hkind] at h
  case restore =>
    cases above with
    | zero => cases h
    | succ above =>
      rw [Nat.add_right_comm]
      exact congrArg (fun depth => some (depth + below)) (Option.some.inj h)
  all_goals
    obtain rfl := Option.some.inj h
    simp [Nat.add_right_comm]

/-- Going back past `depth + 1` states is going back to the latest of them, and then past the rest. -/
theorem afterRestore?_succ (depth : Nat) (ops : List Operation) :
    afterRestore? (depth + 1) ops = (afterRestore? 0 ops).bind (afterRestore? depth) := by
  suffices hsome : ∀ above, afterRestore? (above + (depth + 1)) ops =
      (afterRestore? above ops).bind (afterRestore? depth) by
    simpa using hsome 0
  induction ops with
  | nil => exact fun _ => rfl
  | cons o rest ih =>
    intro above
    cases hdepth : o.balanced? above with
    | none =>
      obtain ⟨hkind, rfl⟩ := balanced?_eq_none.mp hdepth
      simp [afterRestore?, balanced?, hkind]
    | some above' =>
      simp only [afterRestore?, hdepth, balanced?_add hdepth]
      exact ih above'

/-- The operations without those between one that saves the state and the one that goes back to it,
these two included, and without those that go back to a state where none has been saved. -/
def outermost : List Operation → List Operation
  | [] => []
  | o :: rest =>
    match o.op.kind with
    | .save =>
      match _h : afterRestore? 0 rest with
      | some after => outermost after
      | none => o :: outermost rest
    | .restore => outermost rest
    | _ => o :: outermost rest
termination_by ops => ops.length
decreasing_by
  all_goals simp only [List.length_cons, Nat.lt_succ_self]
  exact Nat.lt_succ_of_lt (afterRestore?_length ‹_›)

section

variable {o : Operation} {rest after : List Operation}

theorem outermost_matched (ho : o.op.kind = .save) (h : afterRestore? 0 rest = some after) :
    outermost (o :: rest) = outermost after := by
  rw [outermost, ho]
  dsimp only
  split
  · rename_i found hfound
    rw [Option.some.inj (h.symm.trans hfound)]
  · rename_i hnone
    cases h.symm.trans hnone

theorem outermost_unmatched (ho : o.op.kind = .save) (h : afterRestore? 0 rest = none) :
    outermost (o :: rest) = o :: outermost rest := by
  rw [outermost, ho]
  dsimp only
  split
  · rename_i hfound
    cases h.symm.trans hfound
  · rfl

theorem outermost_restore (ho : o.op.kind = .restore) :
    outermost (o :: rest) = outermost rest := by
  rw [outermost, ho]

theorem outermost_other (hsave : o.op.kind ≠ .save) (hrestore : o.op.kind ≠ .restore) :
    outermost (o :: rest) = o :: outermost rest := by
  rw [outermost]
  split
  · exact absurd ‹_› hsave
  · exact absurd ‹_› hrestore
  · rfl

end

end Operation

namespace Machine

/-! ## Where the state is saved and given back -/

/-- No path is being built, and none is to confine painting. -/
structure Clear (m : Machine) : Prop where
  path : m.path.isEmpty = true
  pendingClip : m.pendingClip = none

/-- The machine is clear wherever operations save the state or go back to another. -/
def SavesClear (c : Context) : Machine → List Operation → Memory → Prop
  | _, [], _ => True
  | m, o :: rest, mem =>
    (o.op.kind = .save ∨ o.op.kind = .restore → m.Clear) ∧
      ∀ n, (m.perform c o).next? mem = some n → SavesClear c n rest (m.perform c o mem).2

variable {c : Context} {m n : Machine} {o : Operation} {mem mem' : Memory}

theorem SavesClear.append {before rest : List Operation}
    (h : SavesClear c m (before ++ rest) mem) (hbefore : m.performAll c before mem = (.ok (.ok n), mem')) :
    SavesClear c n rest mem' := by
  induction before generalizing m mem with
  | nil => cases hbefore; exact h
  | cons o before ih =>
    obtain ⟨m', hm', -⟩ := next?_of_performAll (congrArg Prod.fst hbefore)
    rw [performAll_of_next? hm'] at hbefore
    exact ih (h.2 m' hm') hbefore

theorem perform_save (ho : o.op.kind = .save) : m.perform c o mem = (.ok (.done m.save), mem) := by
  rw [perform_eq, ho]
  rfl

theorem perform_restore (ho : o.op.kind = .restore) :
    m.perform c o mem = (.ok (.done m.restore), mem) := by
  rw [perform_eq, ho]
  rfl

/-! ## What has been saved stays until it is given back -/

/-- **An operation acts on the states that have been saved from some point on**, and leaves alone
those saved before, as long as it does not go back to one of them. -/
theorem perform_frames {inner outer : List GraphicsState} {depth : Nat}
    (hsaved : m.saved = inner ++ outer) (hdepth : o.balanced? inner.length = some depth)
    (hn : (m.perform c o).next? mem = some n) :
    ∃ inner', n.saved = inner' ++ outer ∧ inner'.length = depth := by
  have hmoves := perform_moves hn
  unfold Operation.balanced? at hdepth
  cases hkind : o.op.kind <;> rw [hkind] at hmoves hdepth
  case save =>
    subst hmoves
    exact ⟨m.state :: inner, congrArg (m.state :: ·) hsaved, Option.some.inj hdepth⟩
  case restore =>
    subst hmoves
    cases inner with
    | nil => cases hdepth
    | cons state inner =>
      refine ⟨inner, ?_, Option.some.inj hdepth⟩
      unfold Machine.restore
      rw [hsaved]
      rfl
  all_goals
    have hsame : n.saved = m.saved :=
      Moves.invariant (P := fun n => n.saved = m.saved) (fun _ _ h hs => h.saved.trans hs) hmoves rfl
    exact ⟨inner, hsame.trans hsaved, Option.some.inj hdepth⟩

/-- Operations that go back to a saved state come to the one that does with that state on top. -/
theorem performAll_afterRestore {ops after : List Operation} {inner outer : List GraphicsState}
    (hsaved : m.saved = inner ++ outer)
    (hafter : Operation.afterRestore? inner.length ops = some after)
    (hn : (m.performAll c ops mem).1 = .ok (.ok n)) :
    ∃ before o m' mem', ops = before ++ o :: after ∧ o.op.kind = .restore ∧
      m.performAll c before mem = (.ok (.ok m'), mem') ∧ m'.saved = outer := by
  induction ops generalizing m mem inner with
  | nil => cases hafter
  | cons o rest ih =>
    unfold Operation.afterRestore? at hafter
    cases hdepth : o.balanced? inner.length with
    | none =>
      rw [hdepth] at hafter
      cases hafter
      obtain ⟨hkind, hinner⟩ := Operation.balanced?_eq_none.mp hdepth
      refine ⟨[], o, m, mem, rfl, hkind, rfl, ?_⟩
      rw [hsaved, List.length_eq_zero_iff.mp hinner, List.nil_append]
    | some depth =>
      rw [hdepth] at hafter
      obtain ⟨m₁, hm₁, hn⟩ := next?_of_performAll hn
      obtain ⟨inner', hsaved', rfl⟩ := perform_frames hsaved hdepth hm₁
      obtain ⟨before, o', m', mem', rfl, ho', hbefore, hm'⟩ := ih hsaved' hafter hn
      refine ⟨o :: before, o', m', mem', rfl, ho', ?_, hm'⟩
      rw [performAll_of_next? hm₁, hbefore]

/-! ## The same state in the end -/

/-- Two machines in the same state, whatever has come of their content. -/
def Comparison.none : Comparison where
  machines _ _ := True
  scenes _ _ := True
  congr _ _ _ _ _ := trivial
  paint _ _ _ := trivial
  beginText _ _ := trivial
  endText _ := trivial
  say _ _ := trivial
  splice _ _ := trivial

/-- Where `s` is about to carry out operations, and `t` those of them that leave a trace. What has
been saved is something that none of the operations goes back to. -/
structure Ahead (c : Context) (roots : List Dict) (ops : List Operation) (s t : Machine)
    (mem mem' : Memory) : Prop where
  tandem : Tandem .none s t
  tidy : s.path.Tidy
  saved : s.saved = [] ∨ Operation.afterRestore? 0 ops = .none
  plain : ∀ o ∈ ops, o.Plain
  clear : SavesClear c s ops mem
  sound : mem.Sound c.lib roots c.scopes
  sound' : mem'.Sound c.lib roots c.scopes

section

variable {roots : List Dict} {s t final : Machine} {rest after : List Operation}

/-- Past an operation that saves the state and the one that goes back to it, with all between. -/
theorem Ahead.matched (hco : c.lib.Coherent roots) (hforms : c.FormsCompare c roots .none)
    (h : Ahead c roots (o :: rest) s t mem mem') (ho : o.op.kind = .save)
    (hafter : Operation.afterRestore? 0 rest = some after)
    (hfinal : (s.performAll c (o :: rest) mem).1 = .ok (.ok final)) :
    ∃ s' mem₁, Ahead c roots after s' t mem₁ mem' ∧
      (s'.performAll c after mem₁).1 = .ok (.ok final) := by
  have hfirst : (s.perform c o).next? mem = some s.save :=
    next?_of_result (congrArg Prod.fst (perform_save ho)) rfl
  have hclear := h.clear.2 s.save hfirst
  have hplain := (List.forall_mem_cons.mp h.plain).2
  rw [performAll_of_next? hfirst, perform_save ho] at hfinal
  rw [perform_save ho] at hclear
  obtain ⟨before, o', m', mem₁, rfl, ho', hbefore, hsaved⟩ :=
    performAll_afterRestore (m := s.save) (List.nil_append _).symm hafter hfinal
  have hclear' := hclear.append hbefore
  have hlast : (m'.perform c o').next? mem₁ = some m'.restore :=
    next?_of_result (congrArg Prod.fst (perform_restore ho')) rfl
  rw [performAll_append, hbefore] at hfinal
  dsimp only at hfinal
  rw [performAll_of_next? hlast, perform_restore ho'] at hfinal
  have hrestore : m'.restore = { m' with state := s.state, saved := s.saved } := by
    unfold Machine.restore
    rw [hsaved]
    rfl
  have htidy : m'.path.Tidy := performAll_tidy (m := s.save) h.tidy (congrArg Prod.fst hbefore)
  have hs : s.Clear := h.clear.1 (.inl ho)
  have hm' : m'.Clear := hclear'.1 (.inr ho')
  refine ⟨m'.restore, mem₁, ?_, hfinal⟩
  rw [hrestore]
  exact
    { tandem :=
        { state := h.tandem.state
          saved := h.tandem.saved
          path := by rw [h.tandem.path, h.tidy hs.path]; exact (htidy hm'.path).symm
          pendingClip := by rw [h.tandem.pendingClip, hs.pendingClip]; exact hm'.pendingClip.symm
          compared := trivial }
      tidy := htidy
      saved := by
        refine h.saved.imp_right fun hnone => ?_
        have hone : o.balanced? 0 = some 1 := by unfold Operation.balanced?; rw [ho]
        rw [Operation.afterRestore?, hone] at hnone
        -- nothing goes back past both this state and what has been saved before
        have hbelow := (Operation.afterRestore?_succ 0 (before ++ o' :: after)).symm.trans hnone
        rwa [hafter] at hbelow
      plain := fun o ho => hplain o (List.mem_append_right _ (List.mem_cons_of_mem _ ho))
      clear := by
        have hclear := hclear'.2 _ hlast
        rwa [perform_restore ho', hrestore] at hclear
      sound := by
        have hsame : Tandem .none s.save s.save := ⟨rfl, rfl, rfl, rfl, trivial⟩
        have hsound := (performAll_tandem (.refl c) hco hforms hsame fun o ho =>
          hplain o (List.mem_append_left _ ho)).run h.sound h.sound
        rw [hbefore] at hsound
        exact hsound.2.1
      sound' := h.sound' }

/-- Past an operation that both carry out. -/
theorem Ahead.both (hco : c.lib.Coherent roots) (hforms : c.FormsCompare c roots .none)
    (h : Ahead c roots (o :: rest) s t mem mem')
    (hsaved : ∀ s', (s.perform c o).next? mem = some s' →
      s'.saved = [] ∨ Operation.afterRestore? 0 rest = .none)
    (hfinal : (s.performAll c (o :: rest) mem).1 = .ok (.ok final)) :
    ∃ s' t' mem₁ mem₁', Ahead c roots rest s' t' mem₁ mem₁' ∧
      (s'.performAll c rest mem₁).1 = .ok (.ok final) ∧
      ∀ ops, t.performAll c (o :: ops) mem' = t'.performAll c ops mem₁' := by
  obtain ⟨ho, hplain⟩ := List.forall_mem_cons.mp h.plain
  obtain ⟨s', hs', hfinal⟩ := next?_of_performAll hfinal
  obtain ⟨hmatched, hsound, hsound'⟩ :=
    (perform_tandem (.refl c) hco hforms h.tandem ho).run h.sound h.sound'
  obtain ⟨t', ht', htandem⟩ :=
    next?_of_rel (hmatched.mono fun _ _ hmatched _ hs => hmatched.exists_ok hs) hs'
  have htidy : s'.path.Tidy := by
    have hone : (s.performAll c [o] mem).1 = .ok (.ok s') := by rw [performAll_of_next? hs']; rfl
    exact performAll_tidy h.tidy hone
  exact ⟨s', t', _, _, ⟨htandem, htidy, hsaved s' hs', hplain, h.clear.2 s' hs', hsound, hsound'⟩,
    hfinal, fun ops => performAll_of_next? ht'⟩

/-- Past an operation that goes back to a state where none has been saved. -/
theorem Ahead.restore (h : Ahead c roots (o :: rest) s t mem mem') (ho : o.op.kind = .restore)
    (hfinal : (s.performAll c (o :: rest) mem).1 = .ok (.ok final)) :
    Ahead c roots rest s t mem mem' ∧ (s.performAll c rest mem).1 = .ok (.ok final) := by
  have hnone : s.saved = [] := by
    refine h.saved.resolve_right fun hnone => ?_
    rw [Operation.afterRestore?, Operation.balanced?_eq_none.mpr ⟨ho, rfl⟩] at hnone
    cases hnone
  have hsame : s.perform c o mem = (.ok (.done s), mem) := by
    rw [perform_restore ho, Machine.restore, hnone]
  have hresult : (s.perform c o).next? mem = some s :=
    next?_of_result (congrArg Prod.fst hsame) rfl
  have hclear := h.clear.2 s hresult
  rw [performAll_of_next? hresult, hsame] at hfinal
  rw [hsame] at hclear
  exact ⟨⟨h.tandem, h.tidy, .inl hnone, (List.forall_mem_cons.mp h.plain).2, hclear, h.sound,
    h.sound'⟩, hfinal⟩

end

/-- **Operations without those that leave no trace** lead to a machine in the same state. The
induction follows `Operation.outermost`. -/
theorem Ahead.performAll {roots : List Dict} (hco : c.lib.Coherent roots)
    (hforms : c.FormsCompare c roots .none)
    (ops : List Operation) : ∀ (s t final : Machine) (mem mem' : Memory),
      Ahead c roots ops s t mem mem' → (s.performAll c ops mem).1 = .ok (.ok final) →
      ∃ final', (t.performAll c (Operation.outermost ops) mem').1 = .ok (.ok final') ∧
        Tandem .none final final' := by
  induction ops using Operation.outermost.induct with
  | case1 =>
    intro s t final mem mem' h hfinal
    cases hfinal
    exact ⟨t, by rw [Operation.outermost]; rfl, h.tandem⟩
  | case2 o rest ho after hafter ih =>
    intro s t final mem mem' h hfinal
    obtain ⟨s', mem₁, h', hfinal⟩ := h.matched hco hforms ho hafter hfinal
    rw [Operation.outermost_matched ho hafter]
    exact ih s' t final mem₁ mem' h' hfinal
  | case3 o rest ho hnone ih =>
    intro s t final mem mem' h hfinal
    obtain ⟨s', t', mem₁, mem₁', h', hfinal, ht⟩ :=
      h.both hco hforms (fun _ _ => .inr hnone) hfinal
    rw [Operation.outermost_unmatched ho hnone, ht]
    exact ih s' t' final mem₁ mem₁' h' hfinal
  | case4 o rest ho ih =>
    intro s t final mem mem' h hfinal
    obtain ⟨h', hfinal⟩ := h.restore ho hfinal
    rw [Operation.outermost_restore ho]
    exact ih s t final mem mem' h' hfinal
  | case5 o rest hsave hrestore ih =>
    intro s t final mem mem' h hfinal
    have hbalanced : o.balanced? 0 = some 0 := by
      unfold Operation.balanced?
      cases hkind : o.op.kind <;> first | rfl | exact absurd hkind hsave | exact absurd hkind hrestore
    have hsaved : ∀ s', (s.perform c o).next? mem = some s' →
        s'.saved = [] ∨ Operation.afterRestore? 0 rest = .none := by
      intro s' hs'
      obtain ⟨inner, hinner, hlength⟩ := perform_frames (List.nil_append _).symm hbalanced hs'
      rw [List.length_eq_zero_iff.mp hlength, List.nil_append] at hinner
      have hrest := h.saved
      rw [Operation.afterRestore?, hbalanced] at hrest
      exact hinner ▸ hrest
    obtain ⟨s', t', mem₁, mem₁', h', hfinal, ht⟩ := h.both hco hforms hsaved hfinal
    rw [Operation.outermost_other hsave hrestore, ht]
    exact ih s' t' final mem₁ mem₁' h' hfinal

end Machine

/-! ## Content -/

namespace Content

variable {lib : Library} {mode : Mode} {options : Options} {roots : List Dict}

/-- Reading a form from two sound memories leaves sound memories, whatever comes of it. -/
theorem Reading.formsCompare_none (hco : lib.Coherent roots) (r : Reading) :
    (r.context lib mode options).FormsCompare (r.context lib mode options) roots .none :=
  fun f g hfg hstate hstream =>
    (invoke_agree hco r.room r.inProgress f g hfg hstate hstream).mono fun _ _ _ => trivial

/-- **What lies between saving a state and going back to it leaves no trace in the state**: the
outermost operations lead to the state that all operations lead to, if the state is saved and given
back only where no path is being built and none is to confine painting. -/
theorem performAll_outermost {r : Reading} {ops : List Operation} {mem mem' : Memory} {m : Machine}
    (hco : lib.Coherent roots) (hm : mem.Sound lib roots r.scopes)
    (hm' : mem'.Sound lib roots r.scopes) (hops : ∀ o ∈ ops, o.Plain)
    (hclear : (Machine.start r.state).SavesClear (r.context lib mode options) ops mem)
    (hrun : ((Machine.start r.state).performAll (r.context lib mode options) ops mem).1 =
      .ok (.ok m)) :
    ∃ m', ((Machine.start r.state).performAll (r.context lib mode options)
        (Operation.outermost ops) mem').1 = .ok (.ok m') ∧ m'.state = m.state := by
  obtain ⟨m', hm', htandem⟩ := Machine.Ahead.performAll (c := r.context lib mode options) hco
    (r.formsCompare_none hco) ops (.start r.state) (.start r.state) m mem mem'
    ⟨⟨rfl, rfl, rfl, rfl, trivial⟩, .empty, .inl rfl, hops, hclear, hm, hm'⟩ hrun
  exact ⟨m', hm', htandem.state⟩

/-- A width set between saving the state and going back to it, and an operation that goes back to a
state where none has been saved. -/
theorem performAll_outermost_width :
    let c := (Reading.root .default [] .initial []).context .empty .shapes .default
    let mem := Memory.initial .empty 1
    let width : Operation := ⟨.setLineWidth, [.num 2]⟩
    let ops : List Operation :=
      [width, ⟨.save, []⟩, ⟨.setLineWidth, [.num 3]⟩, ⟨.restore, []⟩, ⟨.restore, []⟩]
    ∃ m m', ((Machine.start .initial).performAll c ops mem).1 = .ok (.ok m) ∧
      Operation.outermost ops = [width] ∧
      ((Machine.start .initial).performAll c (Operation.outermost ops) mem).1 = .ok (.ok m') ∧
      m'.state = m.state := by
  intro c mem width ops
  have hco : Library.empty.Coherent ([].map Scope.dict) := Library.Labelled.empty.coherent (by simp)
  have hplain : ∀ o ∈ ops, o.Plain := by
    simp [ops, width, Operation.Plain, Obj.Plain.atom (o := .num 2) rfl rfl,
      Obj.Plain.atom (o := .num 3) rfl rfl]
  have hclear : (Machine.start .initial).SavesClear c ops mem := by
    -- none of the five builds a path
    iterate 5
      refine ⟨fun _ => ⟨rfl, rfl⟩, ?_⟩
      rintro _ ⟨⟩
    trivial
  obtain ⟨m, hm⟩ : ∃ m, ((Machine.start .initial).performAll c ops mem).1 = .ok (.ok m) := ⟨_, rfl⟩
  obtain ⟨m', hm', hstate⟩ := performAll_outermost (r := .root .default [] .initial []) hco
    (Memory.Sound.initial 1) (Memory.Sound.initial 1) hplain hclear hm
  refine ⟨m, m', hm, ?_, hm', hstate⟩
  rw [Operation.outermost_other (by decide) (by decide), Operation.outermost_matched rfl rfl,
    Operation.outermost_restore rfl, Operation.outermost]

end Content

end PdfScene
