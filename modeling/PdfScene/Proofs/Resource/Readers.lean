import PdfScene.Proofs.Store.Holdings
import PdfScene.Resource.Scope

/-!
# What the readers of resources are made of

Colour spaces, shadings, patterns, parameters and the texts of fonts are read by resolving objects and
by decoding streams. A property of computations is `Run.Compositional` if it holds of decoding, holds of
what asks nothing, and holds of two computations one after the other. All these readers have such a
property, each by its own structure, and that structure is gone through here and nowhere else.

The properties it is used for are that a computation gives no number to anything (`Run.Unnumbered`),
that it comes to one answer from all sound memories (`Run.Steady`), and that it comes to no panic but
an allowed one (`Run.Yields`).
-/

set_option autoImplicit false

namespace PdfScene

/-- The entry of a name in a scope, if the objects of its dictionary are in a set that reading does not
lead away from. -/
theorem Library.Closed.scopeEntry {lib : Library} {P : Obj → Prop} {s : Scope} {category name : String}
    {o : Obj} (h : lib.Closed P) (hs : ∀ e ∈ s.dict, P e.2)
    (ho : s.entry? lib category name = some o) : P o := by
  obtain ⟨o', ho', hnull⟩ := Option.bind_eq_some_iff.mp ho
  obtain ⟨d, hd, hget⟩ := Option.bind_eq_some_iff.mp ho'
  simp only [Option.ite_none_left_eq_some, Option.some.injEq] at hnull
  exact hnull.2 ▸ h.getDict hs hd _ (mem_of_get? hget)

/-- A property of computations that holds of decoding the streams among some objects, and is kept by
what computations are put together with. Reading does not lead away from the objects. -/
structure Run.Compositional (lib : Library) (P : Obj → Prop) (K : ∀ {α : Type}, Run α → Prop) :
    Prop extends lib.Closed P where
  pure : ∀ {α : Type} (a : α), K (Pure.pure a)
  bind : ∀ {α β : Type} {x : Run α} {f : α → Run β}, K x → (∀ a, K (f a)) → K (x >>= f)
  decode : ∀ {s : StreamObj}, P s.toObj → K (Memory.decode lib.inflate s)

namespace Run.Compositional

open Library (Closed)

variable {lib : Library} {P : Obj → Prop} {K : ∀ {α : Type}, Run α → Prop}
  (h : Compositional lib P K)
include h

theorem entries {o : Obj} {d : Dict} (ho : P o) (hd : o.dict? = some d) : ∀ e ∈ d, P e.2 :=
  fun _ he => h.entry ho hd he

/-! ## Fonts -/

theorem font {name : String} {d : Dict} (hd : ∀ e ∈ d, P e.2) : K (Font.read lib name d) := by
  unfold Font.read
  cases hs : lib.stream? d "ToUnicode" with
  | none => exact h.pure _
  | some s =>
    refine h.bind (h.decode (h.toClosed.getStream hd hs)) fun r => ?_
    cases r <;> exact h.pure _

/-! ## Colour spaces -/

theorem table {o : Obj} (ho : P o) : K (ColorSpace.readTable lib o) := by
  unfold ColorSpace.readTable
  cases hs : o.stream? with
  | none => exact h.pure _
  | some s =>
    refine h.bind (h.decode (Closed.stream ho hs)) fun r => ?_
    cases r <;> exact h.pure _

/-- A family has the property if the spaces that it is built from have. -/
theorem family {nested : Obj → Run (Option ColorSpace)} (hnested : ∀ o, P o → K (nested o))
    (family : String) {params : List Obj} (hparams : ∀ o ∈ params, P o) :
    K (ColorSpace.readFamily lib nested family params) := by
  unfold ColorSpace.readFamily
  extract_lets param space
  have hparam : ∀ {i : Nat} {o : Obj}, param i = some o → P o := by
    intro i o hi
    obtain ⟨x, hx, rfl⟩ := Option.map_eq_some_iff.mp hi
    exact h.toClosed.resolve (hparams x (List.mem_of_getElem? hx))
  have hspace : ∀ i, K (space i) := by
    intro i
    dsimp only [space]
    split
    · exact hnested _ (hparams _ (List.mem_of_getElem? ‹_›))
    · exact h.pure _
  split
  case h_1 | h_2 | h_10 => exact h.pure _
  case h_3 => split <;> exact h.pure _
  case h_4 =>
    cases hd : (param 0).bind Obj.dict? with
    | none => exact h.pure _
    | some d =>
      obtain ⟨o, ho, hod⟩ := Option.bind_eq_some_iff.mp hd
      dsimp only
      cases halt : lib.get? d "Alternate" with
      | none => exact h.bind (h.pure _) fun _ => h.pure _
      | some o =>
        have ho := h.toClosed.get (h.entries (hparam ho) hod) halt
        exact h.bind (hnested o ho) fun _ => h.pure _
  -- the family of indexed spaces has two names
  case h_5 | h_6 =>
    refine h.bind (hspace 0) fun base => ?_
    cases base with
    | none => exact h.pure _
    | some base =>
      dsimp only
      split
      · rename_i table _ htable
        refine h.bind (h.table (hparam htable)) fun r => ?_
        cases r <;> exact h.pure _
      · exact h.pure _
  case h_7 =>
    cases param 0 with
    | none => exact h.pure _
    | some ink => exact h.bind (hspace 1) fun _ => h.pure _
  case h_8 =>
    cases (param 0).bind Obj.array? with
    | none => exact h.pure _
    | some inks => exact h.bind (hspace 1) fun _ => h.pure _
  case h_9 =>
    refine h.bind (hspace 0) fun underlying => ?_
    cases underlying <;> exact h.pure _

theorem colorSpace {o : Obj} (ho : P o) : K (ColorSpace.read lib o) := by
  -- by how deep the spaces are built from others
  have hwithin : ∀ room {o : Obj}, P o → K (ColorSpace.readWithin lib room o) := by
    intro room
    induction room with
    | zero => exact fun _ => h.pure _
    | succ room ih =>
      intro o ho
      unfold ColorSpace.readWithin
      split
      · exact h.pure _
      · rename_i first params harray
        have hitems := h.toClosed.items (h.toClosed.resolve ho) (by rw [harray]; rfl)
        split
        · exact h.family (fun _ => ih) _ fun x hx => hitems x (List.mem_cons_of_mem _ hx)
        · exact h.pure _
      · exact h.pure _
  exact hwithin _ ho

/-! ## Shadings, patterns and parameters -/

theorem shading {o : Obj} (ho : P o) : K (Shading.read lib o) := by
  unfold Shading.read
  dsimp only
  cases hd : (lib.resolve o).dict? with
  | none => exact h.pure _
  | some d =>
    dsimp only
    split
    · rename_i space _ hspace
      split
      · exact h.pure _
      · have hentries := h.entries (h.toClosed.resolve ho) hd
        refine h.bind (h.colorSpace (h.toClosed.get hentries hspace)) fun space => ?_
        cases space <;> exact h.pure _
    · exact h.pure _

theorem pattern {o : Obj} (ho : P o) : K (Pattern.read lib o) := by
  unfold Pattern.read
  dsimp only
  cases hd : (lib.resolve o).dict? with
  | none => exact h.pure _
  | some d =>
    dsimp only
    split
    · exact h.pure _
    · cases hs : Dict.get? d "Shading" with
      | none => exact h.pure _
      | some s =>
        have hentry := h.entry (h.toClosed.resolve ho) hd (Library.mem_of_get? hs)
        refine h.bind (h.shading hentry) fun s => ?_
        cases s <;> exact h.pure _
    · exact h.pure _

theorem parameters {d : Dict} (hd : ∀ e ∈ d, P e.2) : K (Parameters.read lib d) := by
  have hfont : K (Parameters.readFont lib d) := by
    unfold Parameters.readFont
    split
    · rename_i font size _ hitems
      split
      · rename_i d' _ hd' _
        have hfont := h.toClosed.resolve (h.toClosed.getItems hd hitems font List.mem_cons_self)
        exact h.bind (h.font (h.entries hfont hd')) fun _ => h.pure _
      · exact h.pure _
    · exact h.pure _
  exact h.bind hfont fun _ => h.pure _

/-! ## Names in a scope -/

theorem colorSpace? {name : String} {s : Scope} (hs : ∀ e ∈ s.dict, P e.2) :
    K (Scope.colorSpace? lib name s) := by
  unfold Scope.colorSpace?
  cases ho : s.entry? lib "ColorSpace" name with
  | none => exact h.pure _
  | some o => exact h.colorSpace (h.toClosed.scopeEntry hs ho)

theorem pattern? {name : String} {s : Scope} (hs : ∀ e ∈ s.dict, P e.2) :
    K (Scope.pattern? lib name s) := by
  unfold Scope.pattern?
  cases ho : s.entry? lib "Pattern" name with
  | none => exact h.pure _
  | some o => exact h.pattern (h.toClosed.scopeEntry hs ho)

theorem shading? {name : String} {s : Scope} (hs : ∀ e ∈ s.dict, P e.2) :
    K (Scope.shading? lib name s) := by
  unfold Scope.shading?
  cases ho : s.entry? lib "Shading" name with
  | none => exact h.pure _
  | some o => exact h.shading (h.toClosed.scopeEntry hs ho)

theorem parameters? {name : String} {s : Scope} (hs : ∀ e ∈ s.dict, P e.2) :
    K (Scope.parameters? lib name s) := by
  unfold Scope.parameters?
  cases hd : (s.entry? lib "ExtGState" name).bind fun o => (lib.resolve o).dict? with
  | none => exact h.pure _
  | some d =>
    obtain ⟨o, ho, hod⟩ := Option.bind_eq_some_iff.mp hd
    have hentries := h.entries (h.toClosed.resolve (h.toClosed.scopeEntry hs ho)) hod
    exact h.bind (h.parameters hentries) fun _ => h.pure _

/-- A search has the property if the look-ups in its scopes have. -/
theorem find {α : Type} {f : Scope → Run (Option α)} {scopes : Scopes} (hf : ∀ s ∈ scopes, K (f s)) :
    K (scopes.find f) := by
  induction scopes with
  | nil => exact h.pure _
  | cons s outer ih =>
    obtain ⟨hs, houter⟩ := List.forall_mem_cons.mp hf
    refine h.bind hs fun found => ?_
    cases found with
    | none => exact ih houter
    | some a => exact h.pure _

end Run.Compositional

end PdfScene
