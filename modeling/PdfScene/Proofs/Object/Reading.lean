import PdfScene.Object.Reader

/-!
# What holds of every object that is read

The reader is a machine with a stack of open containers, which goes on step by step (`run_of_more`)
until the outermost value is finished. A property of objects that atoms have and that passes from the
parts of a container to the container holds of whatever is read: one step keeps it of everything on
the stack, and so does a run (`Invariant.readObject`).
-/

set_option autoImplicit false

namespace PdfScene.Lookahead

/-! ## Steps and runs -/

theorem run_of_more {stack stack' : List Frame} {view view' : Lookahead}
    (h : step stack view = .more stack' view') : run stack view = run stack' view' := by
  rw [run]
  split
  · rename_i hstep
    rw [h] at hstep
    cases hstep
  · rename_i hstep
    rw [h] at hstep
    cases hstep
    rfl

theorem run_of_done {stack : List Frame} {view view' : Lookahead} {result : Except Error Obj}
    (h : step stack view = .done result view') : run stack view = (result, view') := by
  rw [run]
  split
  · rename_i hstep
    rw [h] at hstep
    cases hstep
    rfl
  · rename_i hstep
    rw [h] at hstep
    cases hstep

/-- Steps that lead from one stack and view to another. -/
inductive Leads : List Frame → Lookahead → List Frame → Lookahead → Prop where
  | refl (stack : List Frame) (view : Lookahead) : Leads stack view stack view
  | step {stack stack' stack'' : List Frame} {view view' view'' : Lookahead}
      (h : Lookahead.step stack view = .more stack' view') (rest : Leads stack' view' stack'' view'') :
      Leads stack view stack'' view''

theorem Leads.trans {stack stack' stack'' : List Frame} {view view' view'' : Lookahead}
    (h : Leads stack view stack' view') (h' : Leads stack' view' stack'' view'') :
    Leads stack view stack'' view'' := by
  induction h with
  | refl => exact h'
  | step hstep _ ih => exact .step hstep (ih h')

/-- They are steps of a run. -/
theorem Leads.run_eq {stack stack' : List Frame} {view view' : Lookahead}
    (h : Leads stack view stack' view') : run stack view = run stack' view' := by
  induction h with
  | refl => rfl
  | step hstep _ ih => exact (run_of_more hstep).trans ih

/-! ## Definitions -/

section AndThen

variable {α β : Type}

/-- What is read behind a value. An error ends the reading. -/
def andThen (f : Lookahead → Except Error α × Lookahead)
    (g : α → Lookahead → Except Error β × Lookahead) (view : Lookahead) :
    Except Error β × Lookahead :=
  match f view with
  | (.error e, view) => (.error e, view)
  | (.ok a, view) => g a view

end AndThen

/-- What a definition opens with: a number, a generation and `obj`. -/
def readHeader : Lookahead → Except Error ObjRef × Lookahead :=
  andThen (readIndex .noObjectNumber) fun num =>
    andThen (readIndex .noGeneration) fun generation =>
      andThen (readWord "obj" .noObjectKeyword) fun _ view => (.ok ⟨num, generation⟩, view)

/-- A definition is its header and the object behind that. -/
theorem readDefinition_eq : readDefinition = andThen readHeader fun r =>
    andThen readObject fun o view => (.ok (r, o.definedUnder r), view.skipWord "endobj") := by
  funext view
  unfold readDefinition readHeader andThen
  rcases readIndex .noObjectNumber view with ⟨_ | num, view⟩
  · rfl
  dsimp only [andThen]
  rcases readIndex .noGeneration view with ⟨_ | generation, view⟩
  · rfl
  dsimp only [andThen]
  rcases readWord "obj" .noObjectKeyword view with ⟨_ | u, view⟩
  · rfl
  dsimp only
  rcases readObject view with ⟨_ | o, view⟩
  · rfl
  · rfl

/-! ## Invariants -/

/-- A property of objects, and one of the entries of a dictionary that is being read, which building
objects keeps. -/
structure Invariant (P : Obj → Prop) (E : Dict → Prop) : Prop where
  atom : ∀ o, o.dict? = none → o.array? = none → P o
  array : ∀ items : List Obj, (∀ o ∈ items, P o) → P (.array items)
  empty : E []
  insert : ∀ d key value, E d → P value → E (Dict.insert d key value)
  dict : ∀ d, E d → P (.dict d)
  stream : ∀ d data, E d → P (.stream d data none)

variable {P : Obj → Prop} {E : Dict → Prop}

/-- A container whose parts have the property. -/
def Frame.Keeps (P : Obj → Prop) (E : Dict → Prop) : Frame → Prop
  | .array items => ∀ o ∈ items, P o
  | .dict entries => E entries
  | .entry entries _ => E entries

/-- A step to where everything has the property. -/
def Outcome.Keeps (P : Obj → Prop) (E : Dict → Prop) : Outcome → Prop
  | .more stack _ => ∀ f ∈ stack, f.Keeps P E
  | .done result _ => ∀ o, result = .ok o → P o

namespace Invariant

variable {stack : List Frame} {view : Lookahead} {o : Obj}

theorem settle (h : Invariant P E) {result : Except ObjectFault Obj}
    (hresult : ∀ o, result = .ok o → P o) (hstack : ∀ f ∈ stack, f.Keeps P E) :
    (settle result view stack).Keeps P E := by
  induction stack with
  | nil =>
    intro o ho
    cases result with
    | error e => cases ho
    | ok o' =>
      cases ho
      exact hresult o rfl
  | cons frame stack ih =>
    obtain ⟨hframe, houter⟩ := List.forall_mem_cons.mp hstack
    cases frame with
    | dict entries => exact ih houter
    | array items =>
      cases result with
      | error e => exact ih houter
      | ok o =>
        have hitems : ∀ x ∈ o :: items, P x := List.forall_mem_cons.mpr ⟨hresult o rfl, hframe⟩
        exact List.forall_mem_cons.mpr ⟨hitems, houter⟩
    | entry entries key =>
      cases result with
      | error e =>
        have hnull := h.insert entries key .null hframe (h.atom _ rfl rfl)
        exact List.forall_mem_cons.mpr ⟨hnull, houter⟩
      | ok o =>
        exact List.forall_mem_cons.mpr ⟨h.insert entries key o hframe (hresult o rfl), houter⟩

theorem settle_ok (h : Invariant P E) (ho : P o) (hstack : ∀ f ∈ stack, f.Keeps P E) :
    (Lookahead.settle (.ok o) view stack).Keeps P E :=
  h.settle (fun _ heq => Except.ok.inj heq ▸ ho) hstack

theorem settle_error (h : Invariant P E) {e : ObjectFault} (hstack : ∀ f ∈ stack, f.Keeps P E) :
    (Lookahead.settle (.error e) view stack).Keeps P E :=
  h.settle (fun _ heq => by cases heq) hstack

theorem number (h : Invariant P E) (x : Float) (view : Lookahead) : P (number x view).1 := by
  unfold Lookahead.number
  split
  · split <;> exact h.atom _ rfl rfl
  · exact h.atom _ rfl rfl

theorem opening (h : Invariant P E) (hstack : ∀ f ∈ stack, f.Keeps P E) :
    (opening stack view).Keeps P E := by
  have hitems : ∀ o ∈ ([] : List Obj), P o := fun _ ho => absurd ho List.not_mem_nil
  unfold Lookahead.opening
  dsimp only
  split
  · exact List.forall_mem_cons.mpr ⟨hitems, hstack⟩
  · exact List.forall_mem_cons.mpr ⟨h.empty, hstack⟩
  · exact h.settle_error hstack
  · exact h.settle_error hstack
  · exact h.settle_ok (h.number _ _) hstack
  all_goals exact h.settle_ok (h.atom _ rfl rfl) hstack

theorem close (h : Invariant P E) {entries : Dict} (hentries : E entries)
    (hstack : ∀ f ∈ stack, f.Keeps P E) : (close entries stack view).Keeps P E := by
  unfold Lookahead.close
  split
  · split
    · split
      · exact h.settle_ok (h.stream _ _ hentries) hstack
      · exact fun _ ho => by cases ho
    · exact h.settle_ok (h.dict _ hentries) hstack
  · exact h.settle_ok (h.dict _ hentries) hstack

/-- **A step keeps the property of everything on the stack.** -/
theorem step (h : Invariant P E) (view : Lookahead) (hstack : ∀ f ∈ stack, f.Keeps P E) :
    (step stack view).Keeps P E := by
  unfold Lookahead.step
  split
  · obtain ⟨hitems, houter⟩ := List.forall_mem_cons.mp hstack
    have harray := h.array _ fun o ho => hitems o (List.mem_reverse.mp ho)
    split
    · exact h.settle_ok harray houter
    · exact h.settle_ok harray houter
    · exact hstack
    · exact h.opening hstack
  · obtain ⟨hentries, houter⟩ := List.forall_mem_cons.mp hstack
    have hnull : ∀ key, E (Dict.insert _ key .null) := fun key =>
      h.insert _ key .null hentries (h.atom _ rfl rfl)
    split
    · exact h.close hentries houter
    · exact h.settle_error houter
    · dsimp only
      split
      · exact List.forall_mem_cons.mpr ⟨hnull _, houter⟩
      · exact List.forall_mem_cons.mpr ⟨hnull _, houter⟩
      · exact List.forall_mem_cons.mpr ⟨hentries, houter⟩
    · exact hstack
  · exact h.opening hstack

theorem run (h : Invariant P E) (hstack : ∀ f ∈ stack, f.Keeps P E)
    (ho : (run stack view).1 = .ok o) : P o := by
  fun_induction Lookahead.run stack view with
  | case1 stack view result view' hstep =>
    have hkeeps := h.step view hstack
    rw [hstep] at hkeeps
    exact hkeeps o ho
  | case2 stack view stack' view' hstep ih =>
    have hkeeps := h.step view hstack
    rw [hstep] at hkeeps
    exact ih hkeeps ho

/-- **The property holds of every object that is read.** -/
theorem readObject (h : Invariant P E) (ho : view.readObject.1 = .ok o) : P o :=
  h.run (fun _ hf => absurd hf List.not_mem_nil) ho

end Invariant

end PdfScene.Lookahead
