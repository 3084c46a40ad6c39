import Mathlib
import PdfScene.Proofs.Content.Nesting

/-!
# Forms within forms

A form may use a form that uses it, so that reading what it uses would never end. Two things end it:
a form that is being read is not opened again, and forms are not nested deeper than a limit. The
first is enough where every form has a reference to be known by: the forms being read are then
different references, all among those that names in play lead to, so there are never more of them
than those. The limit is only reached by content that has forms without a reference, or more forms
than it allows for.

`Content.forms_in_progress` is the invariant of nested readings. `Content.invoke_eq_invoke` compares
two limits: where the limits refuse a form at different depths, the form is being read already, so
both refuse it.
-/

set_option autoImplicit false

namespace PdfScene

/-! ## Scopes in play -/

/-- The scopes that content can come to see: those that it is given, and those of the forms that
names in play lead to. -/
inductive Scopes.InPlay (lib : Library) (scopes : Scopes) : Scope → Prop where
  | given {s : Scope} : s ∈ scopes → InPlay lib scopes s
  | ofForm {s : Scope} {name : String} {stream : StreamObj} {d : Dict} {id : Nat} :
      InPlay lib scopes s → s.formStream? lib name = some stream →
      lib.resources? stream.dict = some d → InPlay lib scopes ⟨id, d⟩

/-- Every form that a name in play leads to has a reference, and it is one of `refs`. -/
def Scopes.FormsAmong (lib : Library) (scopes : Scopes) (refs : Finset ObjRef) : Prop :=
  ∀ s name stream, scopes.InPlay lib s → s.formStream? lib name = some stream →
    ∃ r ∈ refs, stream.ref = some r

namespace Content

variable {lib : Library} {mode : Mode} {options : Options}

/-- The scopes of a form that content uses are in play, and its reference is that of a form that a
name in play leads to. -/
theorem inPlay_of_uses {scopes : Scopes} {c : Context} {m : Machine} {ops : List Operation}
    {mem mem' : Memory} {form : Form} (hscopes : ∀ s ∈ c.scopes, scopes.InPlay c.lib s)
    (h : m.Uses c ops mem form mem') :
    (∀ s ∈ form.scopes, scopes.InPlay c.lib s) ∧
      ∃ s name stream, scopes.InPlay c.lib s ∧ s.formStream? c.lib name = some stream ∧
        form.ref = stream.ref := by
  obtain ⟨s, hs, name, stream, state, hstream, hform⟩ := h.formStream
  have hresources : form.resources.map (fun s => (⟨0, s.dict⟩ : Scope)) =
      (c.lib.resources? stream.dict).map fun d => ⟨0, d⟩ := congrArg Form.resources hform
  have houter : form.outer = c.scopes := congrArg Form.outer hform
  have href : form.ref = stream.ref := congrArg Form.ref hform
  refine ⟨fun t ht => ?_, s, name, stream, hscopes s hs, hstream, href⟩
  rw [Form.scopes, houter] at ht
  rcases List.mem_append.mp ht with ht | ht
  · rw [Option.mem_toList.mp ht] at hresources
    cases hd : c.lib.resources? stream.dict with
    | none => rw [hd] at hresources; cases hresources
    | some d =>
      rw [hd] at hresources
      have hdict : t.dict = d := congrArg Scope.dict (Option.some.inj hresources)
      subst hdict
      exact .ofForm (hscopes s hs) hstream hd
  · exact hscopes t ht

/-! ## The forms being read -/

theorem not_mem_of_inUse {inProgress : List ObjRef} {form : Form} {r : ObjRef}
    (h : inUse inProgress form = false) (hr : form.ref = some r) : r ∉ inProgress := by
  simpa [inUse, hr] using h

/-- A form that is not in use makes one more form in progress, and the forms in progress stay
different. -/
theorem nodup_enter {inProgress : List ObjRef} {form : Form} (hnodup : inProgress.Nodup)
    (h : inUse inProgress form = false) : (inProgress ++ form.ref.toList).Nodup := by
  cases hr : form.ref with
  | none => simpa using hnodup
  | some r =>
    rw [Option.toList_some, List.nodup_append]
    refine ⟨hnodup, List.nodup_singleton r, fun a ha b hb => ?_⟩
    rintro rfl
    rw [List.mem_singleton.mp hb] at ha
    exact not_mem_of_inUse h hr ha

/-- **The forms being read are different**, however deep, and depth is room that has been used. -/
theorem forms_in_progress {depth : Nat} {r s : Reading} {mem mem' : Memory}
    (h : Nested lib mode options depth r mem s mem') (hnodup : r.inProgress.Nodup) :
    s.room + depth = r.room ∧ s.inProgress.Nodup := by
  induction h with
  | self => exact ⟨rfl, hnodup⟩
  | inner _ henter _ ih =>
    obtain ⟨hroom, huse, hprogress, _⟩ := Reading.enter_eq_some henter
    obtain ⟨hdepth, hnodup'⟩ := ih (hprogress ▸ nodup_enter hnodup huse)
    exact ⟨by omega, hnodup'⟩

/-! ## Two limits -/

/-- When as many different forms are in progress as there are references, every form is in use. -/
theorem inUse_of_full {refs : Finset ObjRef} {inProgress : List ObjRef} {form : Form} {r : ObjRef}
    (hnodup : inProgress.Nodup) (hsub : ∀ x ∈ inProgress, x ∈ refs)
    (hfull : refs.card ≤ inProgress.length) (hr : form.ref = some r) (hmem : r ∈ refs) :
    inUse inProgress form = true := by
  have hcard : inProgress.toFinset.card = inProgress.length := List.toFinset_card_of_nodup hnodup
  have heq : inProgress.toFinset = refs :=
    Finset.eq_of_subset_of_card_le (fun x hx => hsub x (List.mem_toFinset.mp hx)) (by omega)
  have hin : r ∈ inProgress := List.mem_toFinset.mp (heq ▸ hmem)
  simpa [inUse, hr] using hin

theorem invoke_of_inUse {room : Nat} {inProgress : List ObjRef} {form : Form}
    (h : inUse inProgress form = true) :
    invoke lib mode options room inProgress form = pure .empty := by
  cases room with
  | zero => rfl
  | succ room => rw [invoke, if_pos h]

/-- The limit is the room that content starts with, and nothing else depends on it. -/
theorem invoke_withLimit (limit room : Nat) :
    invoke lib mode { options with formDepth := limit } room = invoke lib mode options room := by
  induction room with
  | zero => rfl
  | succ room ih =>
    funext inProgress form
    simp only [invoke, formScene, ih]

/-- What comes of content is the same for two accounts of forms that agree on those with references
among `refs`. -/
theorem scene_of_formsAmong {scopes : Scopes} {refs : Finset ObjRef} {c : Context}
    (invoke' : Form → Run Scene) (hrefs : scopes.FormsAmong c.lib refs)
    (hscopes : ∀ s ∈ c.scopes, scopes.InPlay c.lib s)
    (hinvoke : ∀ form r, (∀ s ∈ form.scopes, scopes.InPlay c.lib s) → form.ref = some r → r ∈ refs →
      c.invoke form = invoke' form) (state : GraphicsState) (data : Bytes) :
    scene c state data = scene { c with invoke := invoke' } state data := by
  refine scene_congr fun form mem mem' huse => ?_
  obtain ⟨hform, s, name, stream, hs, hstream, href⟩ := inPlay_of_uses hscopes huse
  obtain ⟨r, hmem, hr⟩ := hrefs s name stream hs hstream
  rw [hinvoke form r hform (href.trans hr) hmem]

/-- Two limits that leave room for every form that is not being read yet come to the same. The
induction is on the room; where one of the two has none left, all references are in progress. -/
theorem invoke_eq_invoke {scopes : Scopes} {refs : Finset ObjRef}
    (hrefs : scopes.FormsAmong lib refs) {room₁ : Nat} :
    ∀ {room₂ : Nat} {inProgress : List ObjRef} {form : Form} {r : ObjRef},
      inProgress.Nodup → (∀ x ∈ inProgress, x ∈ refs) →
      refs.card ≤ inProgress.length + room₁ → refs.card ≤ inProgress.length + room₂ →
      (∀ s ∈ form.scopes, scopes.InPlay lib s) → form.ref = some r → r ∈ refs →
      invoke lib mode options room₁ inProgress form =
        invoke lib mode options room₂ inProgress form := by
  induction room₁ with
  | zero =>
    intro room₂ inProgress form r hnodup hsub hroom₁ _ _ hr hmem
    -- no room is left, so every reference is in progress, that of the form among them
    have huse := inUse_of_full hnodup hsub hroom₁ hr hmem
    rw [invoke_of_inUse huse, invoke_of_inUse huse]
  | succ room₁ ih =>
    intro room₂ inProgress form r hnodup hsub hroom₁ hroom₂ hscopes hr hmem
    cases room₂ with
    | zero =>
      have huse := inUse_of_full hnodup hsub hroom₂ hr hmem
      rw [invoke_of_inUse huse, invoke_of_inUse huse]
    | succ room₂ =>
      cases huse : inUse inProgress form with
      | true => rw [invoke_of_inUse huse, invoke_of_inUse huse]
      | false =>
        have hprogress : inProgress ++ form.ref.toList = inProgress ++ [r] := by rw [hr]; rfl
        have hnodup' : (inProgress ++ [r]).Nodup := hprogress ▸ nodup_enter hnodup huse
        have hsub' : ∀ x ∈ inProgress ++ [r], x ∈ refs := by
          intro x hx
          rcases List.mem_append.mp hx with hx | hx
          · exact hsub x hx
          · exact List.mem_singleton.mp hx ▸ hmem
        have hlength : (inProgress ++ [r]).length = inProgress.length + 1 := by simp
        simp only [invoke, huse, Bool.false_eq_true, if_false, formScene, hprogress]
        refine bind_congr fun answer => ?_
        cases answer with
        | error e => rfl
        | ok decoded =>
          have hscene := scene_of_formsAmong
            (c := ⟨lib, mode, options.recordText, form.scopes,
              invoke lib mode options room₁ (inProgress ++ [r])⟩)
            (invoke lib mode options room₂ (inProgress ++ [r])) hrefs hscopes
            (fun inner r' hinner hr' hmem' =>
              ih hnodup' hsub' (by omega) (by omega) hinner hr' hmem')
            form.initialState decoded.data
          dsimp only at hscene ⊢
          rw [hscene]

/-- **Reading ends by itself.** Forms are never nested deeper than the limit, and none is opened
while it is being read. Where every form that a name in play leads to has a reference, among `refs`,
any two limits that allow for as many forms as `refs` are come to the same. -/
theorem interpret_recursion (lib : Library) (mode : Mode) (options : Options) (scopes : Scopes)
    (state : GraphicsState) (data : Bytes) :
    (∀ depth r mem mem',
        Nested lib mode options depth (.root options scopes state data) mem r mem' →
          depth ≤ options.formDepth ∧ r.inProgress.Nodup) ∧
      ∀ refs, scopes.FormsAmong lib refs →
        ∀ depth₁ depth₂, refs.card ≤ depth₁ → refs.card ≤ depth₂ →
          interpret lib mode { options with formDepth := depth₁ } scopes state data =
            interpret lib mode { options with formDepth := depth₂ } scopes state data := by
  refine ⟨fun depth r mem mem' h => ?_, fun refs hrefs depth₁ depth₂ h₁ h₂ => ?_⟩
  · obtain ⟨hroom, hnodup⟩ := forms_in_progress h List.nodup_nil
    have hdepth : r.room + depth = options.formDepth := hroom
    exact ⟨by omega, hnodup⟩
  · have hscene := scene_of_formsAmong
      (c := ⟨lib, mode, options.recordText, scopes, invoke lib mode options depth₁ []⟩)
      (invoke lib mode options depth₂ []) hrefs (fun s hs => .given hs)
      (fun form r hform hr hmem => invoke_eq_invoke hrefs List.nodup_nil
        (fun x hx => absurd hx List.not_mem_nil) (by simpa using h₁) (by simpa using h₂)
        hform hr hmem)
      state data
    simpa only [interpret, invoke_withLimit] using hscene

end Content

/-! ## A form that paints itself -/

/-- A form that paints itself. -/
def StreamObj.selfPainting : StreamObj :=
  ⟨[("Subtype", .name "Form")], Bytes.ofAscii "/F Do", some ⟨1, 0⟩⟩

/-- The library in which it is the only object. -/
def Library.selfPainting : Library := Library.empty.insert ⟨1, 0⟩ StreamObj.selfPainting.toObj

/-- The scope that calls it F. -/
def Scope.selfPainting : Scope := ⟨0, [("XObject", .dict [("F", .ref ⟨1, 0⟩)])]⟩

theorem Scope.formStream?_selfPainting {s : Scope} {name : String} {stream : StreamObj}
    (hs : s.dict = selfPainting.dict) (h : s.formStream? .selfPainting name = some stream) :
    stream = .selfPainting := by
  rw [Scope.formStream?_congr hs] at h
  by_cases hname : name = "F"
  · subst hname
    have hF : selfPainting.formStream? .selfPainting "F" = some .selfPainting := by cbv
    exact Option.some.inj (h.symm.trans hF)
  · have hnames : Library.dict? .selfPainting selfPainting.dict "XObject" =
        some [("F", .ref ⟨1, 0⟩)] := by cbv
    have hnone : selfPainting.entry? .selfPainting "XObject" name = none := by
      simp [Scope.entry?, hnames, Dict.get?, List.lookup, beq_false_of_ne hname]
    simp [Scope.formStream?, hnone] at h

theorem Scopes.formsAmong_selfPainting :
    Scopes.FormsAmong .selfPainting [Scope.selfPainting] {⟨1, 0⟩} := by
  have hdict : ∀ s, Scopes.InPlay .selfPainting [Scope.selfPainting] s →
      s.dict = Scope.selfPainting.dict := by
    intro s h
    induction h with
    | given hs => rw [List.mem_singleton.mp hs]
    | ofForm _ hstream hd ih =>
      have hnone : Library.resources? .selfPainting StreamObj.selfPainting.dict = none := by cbv
      rw [Scope.formStream?_selfPainting ih hstream, hnone] at hd
      cases hd
  intro s name stream hs hstream
  rw [Scope.formStream?_selfPainting (hdict s hs) hstream]
  exact ⟨⟨1, 0⟩, Finset.mem_singleton_self _, rfl⟩

theorem Operation.readAll_selfPainting :
    readAll (Bytes.ofAscii "/F Do") = [⟨.paintXObject, [.name "F"]⟩] := by cbv

/-- Content that paints the form opens it once, and room for one form is as good as for twelve. -/
theorem Content.interpret_recursion_selfPainting :
    let lib := Library.selfPainting
    let data := Bytes.ofAscii "/F Do"
    let root := Reading.root .default [.selfPainting] .initial data
    (∃ r mem', Nested lib .shapes .default 1 root (.initial lib 1) r mem' ∧
        1 ≤ Options.default.formDepth ∧ r.inProgress.Nodup) ∧
      Scopes.FormsAmong lib [.selfPainting] {⟨1, 0⟩} ∧
      interpret lib .shapes { Options.default with formDepth := 1 } [.selfPainting] .initial data =
        interpret lib .shapes { Options.default with formDepth := 12 } [.selfPainting] .initial
          data := by
  intro lib data root
  have hrecursion := interpret_recursion lib .shapes .default [.selfPainting] .initial data
  refine ⟨?_, Scopes.formsAmong_selfPainting,
    hrecursion.2 {⟨1, 0⟩} Scopes.formsAmong_selfPainting 1 12 (by decide) (by decide)⟩
  have hx : Scopes.xobject? lib "F" [.selfPainting] (.initial lib 1) =
      (.ok (some (.form (Form.ofStream lib .selfPainting))), .initial lib 1) := by cbv
  have huse : (Machine.start root.state).Uses (root.context lib .shapes .default)
      (Operation.readAll root.data) (.initial lib 1)
      ((Form.ofStream lib .selfPainting).usedIn [.selfPainting] .initial) (.initial lib 1) := by
    change Machine.Uses _ _ (Operation.readAll data) _ _ _
    rw [Operation.readAll_selfPainting]
    exact .here (m := .start .initial) rfl rfl hx
  have hdata : ((Form.ofStream lib .selfPainting).usedIn [.selfPainting] .initial).data lib
      (.initial lib 1) = (.ok (.ok ⟨data, none⟩), _) := rfl
  have hnested := Nested.inner huse (Reading.enter_of_data rfl rfl hdata) .self
  exact ⟨_, _, hnested, hrecursion.1 1 _ _ _ hnested⟩

end PdfScene
