import PdfScene.Proofs.Lexical.Locality
import PdfScene.Proofs.Object.Reading

/-!
# Objects are read without regard to what follows

The reader has two tokens in view, and what it does depends on them and on the input behind them. So
a reader is local (`Lookahead.Local`) if with any two tokens in view it is a local scan of what is
behind them. All that readers are made of is, and so are a step of the innermost container, a run of
such steps, and at last `Lookahead.readDefinition`: what a definition is read as does not depend on
what the reader has not come to.
-/

set_option autoImplicit false

namespace PdfScene.Lookahead

variable {α β : Type}

/-- What a reader returns, with the tokens that are then in view, and the input behind them. -/
def seen (r : α × Lookahead) : (α × Token × Token) × Bytes :=
  ((r.1, r.2.first, r.2.second), r.2.rest)

/-- A reader that does not depend on a tail that it does not reach. -/
def Local (f : Lookahead → α × Lookahead) : Prop :=
  ∀ first second, PdfScene.Local fun bs => seen (f ⟨first, second, bs⟩)

theorem seen_eq_iff {r : α × Lookahead} {a : α} {first second : Token} {rest : Bytes} :
    seen r = ((a, first, second), rest) ↔ r = (a, ⟨first, second, rest⟩) := by
  obtain ⟨b, view⟩ := r
  cases view
  simp [seen, and_assoc]

namespace Local

section

variable {f : Lookahead → α × Lookahead}

theorem shrinks (hf : Local f) (view : Lookahead) : (f view).2.rest.length ≤ view.rest.length :=
  (hf view.first view.second).shrinks view.rest

theorem agrees (hf : Local f) {first second : Token} {s w w' : Bytes}
    (h : w.length ≤ (f ⟨first, second, s ++ w⟩).2.rest.length)
    (h' : w'.length ≤ (f ⟨first, second, s ++ w'⟩).2.rest.length) :
    ∃ a first' second' t, f ⟨first, second, s ++ w⟩ = (a, ⟨first', second', t ++ w⟩) ∧
      f ⟨first, second, s ++ w'⟩ = (a, ⟨first', second', t ++ w'⟩) := by
  obtain ⟨⟨a, first', second'⟩, t, heq, heq'⟩ := (hf first second).agrees s w w' h h'
  exact ⟨a, first', second', t, seen_eq_iff.mp heq, seen_eq_iff.mp heq'⟩

end

theorem pure (a : Token → Token → α) : Local fun view => (a view.first view.second, view) :=
  fun first second => .pure (a first second, first, second)

theorem bind {f : Lookahead → α × Lookahead} {g : α → Lookahead → β × Lookahead} (hf : Local f)
    (hg : ∀ a, Local (g a)) : Local fun view => g (f view).1 (f view).2 :=
  fun first second => (hf first second).bind fun found => hg found.1 found.2.1 found.2.2

theorem map {f : Lookahead → α × Lookahead} (hf : Local f) (g : α → β) :
    Local fun view => (g (f view).1, (f view).2) :=
  hf.bind fun a => pure fun _ _ => g a

/-- The bytes behind the tokens may be read as such, with new tokens behind them. -/
theorem ofBytes : PdfScene.Local fun bs => seen ((), Lookahead.ofBytes bs) :=
  nextToken_local.bind fun first => nextToken_local.map fun second => ((), first, second)

theorem shift : Local fun view => ((), view.shift) :=
  fun _ second => nextToken_local.map fun next => ((), second, next)

/-- A reader of bytes is local if what it does with the tokens at the front is. -/
theorem onBytes {f : Lookahead → α × Lookahead} (hf : Local f) :
    PdfScene.Local fun bs => seen (f (Lookahead.ofBytes bs)) :=
  ofBytes.bind fun found => hf found.2.1 found.2.2

/-- So with another tail it reads the same. -/
theorem same {f : Lookahead → α × Lookahead} (hf : Local f) {s w w' : Bytes}
    (h : w.length ≤ (f (Lookahead.ofBytes (s ++ w))).2.rest.length)
    (h' : w'.length ≤ (f (Lookahead.ofBytes (s ++ w'))).2.rest.length) :
    (f (Lookahead.ofBytes (s ++ w))).1 = (f (Lookahead.ofBytes (s ++ w'))).1 := by
  obtain ⟨found, rest, heq, heq'⟩ := hf.onBytes.agrees s w w' h h'
  exact (congrArg (fun r => r.1.1) heq).trans (congrArg (fun r => r.1.1) heq').symm

end Local

/-! ## One step -/

/-- Where a step leads, with the view apart. -/
def Outcome.split : Outcome → (List Frame ⊕ Except Error Obj) × Lookahead
  | .more stack view => (.inl stack, view)
  | .done result view => (.inr result, view)

theorem settle_local (result : Except ObjectFault Obj) (stack : List Frame) :
    Local fun view => (settle result view stack).split := by
  induction stack with
  | nil => exact .pure fun _ _ => Sum.inr (result.mapError Error.object)
  | cons frame stack ih =>
    cases frame with
    | dict entries => exact ih
    | array items =>
      cases result with
      | error e => exact ih
      | ok o => exact .pure fun _ _ => Sum.inl (.array (o :: items) :: stack)
    | entry entries key =>
      cases result with
      | error e => exact .pure fun _ _ => Sum.inl (.dict (entries.insert key .null) :: stack)
      | ok o => exact .pure fun _ _ => Sum.inl (.dict (entries.insert key o) :: stack)

/-- A value that ends with the first token in view. -/
theorem settle_shift_local (result : Except ObjectFault Obj) (stack : List Frame) :
    Local fun view => (settle result view.shift stack).split :=
  Local.shift.bind fun _ => settle_local result stack

theorem number_local (x : Float) : Local (number x) := by
  have hshifts : Local fun view => ((), view.shift.shift) := Local.shift.bind fun _ => Local.shift
  intro first second
  cases first with
  | num g =>
    cases second with
    | word w =>
      by_cases href : (w = "R" && 0 ≤ x && 0 ≤ g) = true
      · simp only [number, href, if_true]
        exact hshifts.map (fun _ => Obj.ref ⟨x.toUInt32, g.toUInt32⟩) (.num g) (.word w)
      · simp only [number, href]
        exact Local.pure (fun _ _ => Obj.num x) (.num g) (.word w)
    | _ => exact Local.pure (fun _ _ => Obj.num x) _ _
  | _ => exact Local.pure (fun _ _ => Obj.num x) _ _

theorem opening_local (stack : List Frame) : Local fun view => (opening stack view).split := by
  intro first second
  cases first with
  | arrayStart => exact Local.shift.map (fun _ => Sum.inl (.array [] :: stack)) .arrayStart second
  | dictStart => exact Local.shift.map (fun _ => Sum.inl (.dict [] :: stack)) .dictStart second
  | num x =>
    exact Local.shift.bind (fun _ => (number_local x).bind fun o => settle_local (.ok o) stack)
      (.num x) second
  | arrayEnd => exact settle_shift_local _ stack .arrayEnd second
  | dictEnd => exact settle_shift_local _ stack .dictEnd second
  | eof => exact settle_shift_local _ stack .eof second
  | bool b => exact settle_shift_local _ stack (.bool b) second
  | null => exact settle_shift_local _ stack .null second
  | str s => exact settle_shift_local _ stack (.str s) second
  | hexStr s => exact settle_shift_local _ stack (.hexStr s) second
  | name s => exact settle_shift_local _ stack (.name s) second
  | word s => exact settle_shift_local _ stack (.word s) second

theorem close_local (entries : Dict) (stack : List Frame) :
    Local fun view => (close entries stack view).split := by
  intro first second
  cases second with
  | word w =>
    by_cases hw : w = "stream"
    · cases hroom : StreamBody.hasRoom (statedLength entries) with
      | true =>
        simp only [close, hw, if_true, StreamBody.scan_of_hasRoom hroom]
        exact (StreamBody.body_local (statedLength entries)).bind fun data => Local.ofBytes.bind
          fun found => settle_local (.ok (.stream entries data none)) stack found.2.1 found.2.2
      | false =>
        simp only [close, hw, if_true, StreamBody.scan_of_not_hasRoom hroom]
        exact Local.pure (fun _ _ => Sum.inr (Except.error (Error.panic .capacityOverflow))) first _
    · simp only [close, hw, if_false]
      exact settle_shift_local _ stack first (.word w)
  | _ => exact settle_shift_local _ stack first _

/-- What a key in a dictionary is followed by decides whether it has a value. -/
def afterKey (entries : Dict) (key : String) (outer : List Frame) : Token → List Frame
  | .dictEnd => .dict (entries.insert key .null) :: outer
  | .eof => .dict (entries.insert key .null) :: outer
  | _ => .entry entries key :: outer

theorem step_key (entries : Dict) (key : String) (outer : List Frame) (second : Token)
    (rest : Bytes) : step (.dict entries :: outer) ⟨.name key, second, rest⟩ =
      .more (afterKey entries key outer second) (shift ⟨.name key, second, rest⟩) := by
  cases second <;> rfl

theorem key_local (entries : Dict) (key : String) (outer : List Frame) (second : Token) :
    PdfScene.Local fun bs => seen (step (.dict entries :: outer) ⟨.name key, second, bs⟩).split := by
  obtain ⟨next, hnext⟩ : ∃ next : List Frame ⊕ Except Error Obj,
      next = .inl (afterKey entries key outer second) := ⟨_, rfl⟩
  have heq : (fun bs => seen (step (.dict entries :: outer) ⟨.name key, second, bs⟩).split) =
      fun bs => seen (next, shift ⟨.name key, second, bs⟩) :=
    funext fun bs => by rw [step_key, Outcome.split, hnext]
  rw [heq]
  exact (Local.shift.map fun _ => next) (.name key) second

/-- **One step of the innermost container is local.** -/
theorem step_local (stack : List Frame) : Local fun view => (step stack view).split := by
  intro first second
  match stack with
  | [] => exact opening_local [] first second
  | .entry entries key :: outer => exact opening_local _ first second
  | .array items :: outer =>
    by_cases hend : first = .arrayEnd
    · subst hend
      exact settle_shift_local _ outer .arrayEnd second
    by_cases heof : first = .eof
    · subst heof
      exact settle_local _ outer .eof second
    by_cases hstray : first = .dictEnd
    · subst hstray
      exact Local.shift.map (fun _ => Sum.inl (.array items :: outer)) .dictEnd second
    · have hopen : ∀ bs, step (.array items :: outer) ⟨first, second, bs⟩ =
          opening (.array items :: outer) ⟨first, second, bs⟩ := by
        intro bs
        simp only [step]
      simp only [hopen]
      exact opening_local _ first second
  | .dict entries :: outer =>
    cases first with
    | dictEnd => exact close_local entries outer .dictEnd second
    | eof => exact settle_local _ outer .eof second
    | name key => exact key_local entries key outer second
    | _ => exact Local.shift.map (fun _ => Sum.inl (.dict entries :: outer)) _ second

/-! ## Reading -/

theorem run_split (stack : List Frame) (view : Lookahead) : run stack view =
    match (step stack view).split with
    | (.inl stack, view) => run stack view
    | (.inr result, view) => (result, view) := by
  cases hstep : step stack view with
  | more stack' view' => exact run_of_more hstep
  | done result view' => exact run_of_done hstep

theorem run_rest_length_le (stack : List Frame) (view : Lookahead) :
    (run stack view).2.rest.length ≤ view.rest.length := by
  fun_induction run stack view with
  | case1 stack view result view' hstep =>
    have hshrinks := (step_local stack).shrinks view
    rw [hstep] at hshrinks
    exact hshrinks
  | case2 stack view stack' view' hstep ih =>
    have hshrinks := (step_local stack).shrinks view
    rw [hstep] at hshrinks
    exact Nat.le_trans ih hshrinks

theorem run_rest_length_le_step (stack : List Frame) (view : Lookahead) :
    (run stack view).2.rest.length ≤ (step stack view).split.2.rest.length := by
  rw [run_split]
  split <;> rename_i hsplit <;> rw [hsplit]
  exact run_rest_length_le _ _

/-- **A run is local**, as each of its steps is. -/
theorem run_local (stack : List Frame) : Local (run stack) := by
  suffices hagrees : ∀ n stack first second s w w', budget stack ⟨first, second, s ++ w⟩ = n →
      w.length ≤ (run stack ⟨first, second, s ++ w⟩).2.rest.length →
      w'.length ≤ (run stack ⟨first, second, s ++ w'⟩).2.rest.length →
      ∃ a t, seen (run stack ⟨first, second, s ++ w⟩) = (a, t ++ w) ∧
        seen (run stack ⟨first, second, s ++ w'⟩) = (a, t ++ w') from
    fun first second => ⟨fun bs => run_rest_length_le stack ⟨first, second, bs⟩,
      fun s w w' => hagrees _ stack first second s w w' rfl⟩
  intro n
  induction n using Nat.strongRecOn with
  | ind n ih =>
    intro stack first second s w w' hn h h'
    obtain ⟨next, first', second', t, hstep, hstep'⟩ := (step_local stack).agrees
      (Nat.le_trans h (run_rest_length_le_step _ _)) (Nat.le_trans h' (run_rest_length_le_step _ _))
    rw [run_split, hstep] at h ⊢
    rw [run_split, hstep'] at h' ⊢
    cases next with
    | inr result => exact ⟨(result, first', second'), t, rfl, rfl⟩
    | inl stack' =>
      have hmore : step stack ⟨first, second, s ++ w⟩ = .more stack' ⟨first', second', t ++ w⟩ := by
        cases hs : step stack ⟨first, second, s ++ w⟩ <;> rw [hs] at hstep <;> cases hstep
        rfl
      exact ih _ (hn ▸ step_budget hmore) stack' first' second' t w w' rfl h h'

theorem Leads.rest_length_le {stack stack' : List Frame} {view view' : Lookahead}
    (h : Leads stack view stack' view') : view'.rest.length ≤ view.rest.length := by
  induction h with
  | refl => exact Nat.le_refl _
  | @step stack stack' _ view view' _ hstep _ ih =>
    have hshrinks := (step_local stack).shrinks view
    rw [hstep] at hshrinks
    exact Nat.le_trans ih hshrinks

/-- The view of a stream: the end of its dictionary and the word behind that. -/
def OnStream (view : Lookahead) : Prop := view.first = .dictEnd ∧ view.second = .word "stream"

/-- No further step leads on from there. -/
theorem OnStream.not_more {d : Dict} {view view' : Lookahead} {stack : List Frame}
    (h : view.OnStream) : step [.dict d] view ≠ .more stack view' := by
  intro hstep
  simp only [step, close, h.1, h.2, if_true] at hstep
  split at hstep <;> cases hstep

/-- **Two runs that come to data have come to the data of the same dictionary**, if neither has read
on into its tail. -/
theorem Leads.agrees {w w' : Bytes} {d d' : Dict} {stack stack₁ : List Frame}
    {view₁ view view' : Lookahead} (h : Leads stack view₁ stack₁ view) :
    ∀ {first second : Token} {s : Bytes}, view₁ = ⟨first, second, s ++ w⟩ → stack₁ = [.dict d] →
      Leads stack ⟨first, second, s ++ w'⟩ [.dict d'] view' → view.OnStream → view'.OnStream →
      w.length ≤ view.rest.length → w'.length ≤ view'.rest.length →
      d = d' ∧ ∃ t, view.rest = t ++ w ∧ view'.rest = t ++ w' := by
  induction h with
  | refl stack view =>
    rintro first second s rfl rfl h' hstream hstream' hrest hrest'
    cases h' with
    | refl => exact ⟨rfl, s, rfl, rfl⟩
    | step hstep _ => exact absurd hstep (OnStream.not_more hstream)
  | @step stack stack₂ stack₁ view₁ view₂ view hstep hleads ih =>
    rintro first second s rfl rfl h' hstream hstream' hrest hrest'
    cases h' with
    | refl => exact absurd hstep (OnStream.not_more hstream')
    | @step _ stack₂' _ _ view₂' _ hstep' hleads' =>
      -- the two steps lead to the same stack and to views that differ in their tails
      obtain ⟨next, first', second', t, heq, heq'⟩ := (step_local stack).agrees
        (by rw [hstep]; exact Nat.le_trans hrest hleads.rest_length_le)
        (by rw [hstep']; exact Nat.le_trans hrest' hleads'.rest_length_le)
      rw [hstep] at heq
      rw [hstep'] at heq'
      cases heq
      cases heq'
      exact ih rfl rfl hleads' hstream hstream' hrest hrest'

theorem readObject_local : Local readObject := run_local []

theorem readIndex_local (fault : ObjectFault) : Local (readIndex fault) := by
  intro first second
  cases first with
  | num x =>
    exact Local.shift.map (fun _ => if 0 ≤ x then Except.ok x.toUInt32 else .error (Error.object fault))
      (.num x) second
  | _ => exact Local.shift.map (fun _ => Except.error (Error.object fault)) _ second

theorem readWord_local (word : String) (fault : ObjectFault) : Local (readWord word fault) := by
  intro first second
  cases first with
  | word w =>
    exact Local.shift.map (fun _ => if w = word then Except.ok () else .error (Error.object fault))
      (.word w) second
  | _ => exact Local.shift.map (fun _ => Except.error (Error.object fault)) _ second

theorem skipWord_local (word : String) : Local fun view => ((), view.skipWord word) := by
  intro first second
  cases first with
  | word w =>
    by_cases hw : w = word
    · simp only [skipWord, hw, if_true]
      exact Local.shift (.word word) second
    · simp only [skipWord, hw, if_false]
      exact Local.pure (fun _ _ => ()) (.word w) second
  | _ => exact Local.pure (fun _ _ => ()) _ second

theorem Local.andThen {f : Lookahead → Except Error α × Lookahead}
    {g : α → Lookahead → Except Error β × Lookahead} (hf : Local f) (hg : ∀ a, Local (g a)) :
    Local (andThen f g) := by
  have hbind := hf.bind (g := fun result view => match result with
    | .error e => (.error e, view)
    | .ok a => g a view) fun result => by
      cases result with
      | error e => exact .pure fun _ _ => Except.error e
      | ok a => exact hg a
  have heq : Lookahead.andThen f g = fun view => match (f view).1 with
      | .error e => (.error e, (f view).2)
      | .ok a => g a (f view).2 := by
    funext view
    rw [Lookahead.andThen]
    rcases f view with ⟨_ | _, _⟩ <;> rfl
  exact heq ▸ hbind

theorem readHeader_local : Local readHeader :=
  (readIndex_local .noObjectNumber).andThen fun num =>
    (readIndex_local .noGeneration).andThen fun generation =>
      (readWord_local "obj" .noObjectKeyword).andThen fun _ =>
        .pure fun _ _ => Except.ok (ObjRef.mk num generation)

/-- **What a definition is read as does not depend on what the reader does not come to.** -/
theorem readDefinition_local : Local readDefinition := by
  rw [readDefinition_eq]
  exact readHeader_local.andThen fun r => readObject_local.andThen fun o =>
    (skipWord_local "endobj").map fun _ => Except.ok (r, o.definedUnder r)

end PdfScene.Lookahead
