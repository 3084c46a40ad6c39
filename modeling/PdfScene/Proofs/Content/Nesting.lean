import PdfScene.Proofs.Content.Step
import PdfScene.Proofs.Resource.Lookup

/-!
# Nesting — the readings that a reading opens

A reading of content opens others: each form that the content paints is read in turn, unless it is
refused. `Content.invoke` does that by recursion, and its value says what has come of the forms but
not which of them were read, when, and how deep. Statements about every form that is read, at any
depth, need these readings themselves.

A `Content.Reading` is one of them, with what it may still open. `Machine.Uses` says which forms
operations come to, in which memory; `Reading.enter` is the reading that a form opens, if it is not
refused; `Content.Nested` is the two together, any number of times over.

None of this is a second account of what happens. `Content.invoke_eq` is the recursion in terms of
`Reading.enter`, and `Machine.performAll_congr` says that operations ask for the forms that they use
and for no others.
-/

set_option autoImplicit false

namespace PdfScene

/-! ## The forms that operations use -/

namespace Machine

/-- Operations come to a form: one of them paints it, in the memory that those before it leave. -/
inductive Uses (c : Context) : Machine → List Operation → Memory → Form → Memory → Prop where
  | here {m : Machine} {o : Operation} {rest : List Operation} {mem mem' : Memory} {name : String}
      {form : Form} :
      o.op = .paintXObject → o.name 0 = .ok name →
      c.scopes.xobject? c.lib name mem = (.ok (some (.form form)), mem') →
      Uses c m (o :: rest) mem (form.usedIn c.scopes m.state) mem'
  | later {m n : Machine} {o : Operation} {rest : List Operation} {mem mem' : Memory}
      {form : Form} :
      (m.perform c o).next? mem = some n →
      Uses c n rest (m.perform c o mem).2 form mem' → Uses c m (o :: rest) mem form mem'

variable {c : Context} {invoke' : Form → Run Scene}

theorem perform_form {m : Machine} {o : Operation} {name : String} {form : Form} {mem mem' : Memory}
    (hop : o.op = .paintXObject) (hname : o.name 0 = .ok name)
    (hform : c.scopes.xobject? c.lib name mem = (.ok (some (.form form)), mem')) :
    m.perform c o mem =
      ((fun s => .done (m.splice s)) <$> c.invoke (form.usedIn c.scopes m.state)) mem' := by
  rw [perform_eq, hop]
  change m.orReject (o.name 0) (m.paintObject c) mem = _
  rw [hname]
  change m.paintObject c name mem = _
  rw [paintObject, Run.bind_of_eq hform]
  rfl

theorem perform_image {m : Machine} {o : Operation} {name : String} {image : Image}
    {decoded : Decoded} {pixels : Option Pixels} {mem mem₁ mem₂ : Memory} (hmode : c.mode = .shapes)
    (hop : o.op = .paintXObject) (hname : o.name 0 = .ok name)
    (himage : c.scopes.xobject? c.lib name mem = (.ok (some (.image image)), mem₁))
    (hdata : image.data c.lib mem₁ = (.ok (.ok decoded), mem₂))
    (hpixels : image.pixels? decoded c.lib.jpeg = .ok pixels) :
    m.perform c o mem = (.ok (.done (m.paint (.image image pixels false))), mem₂) := by
  rw [perform_eq, hop]
  change m.orReject (o.name 0) (m.paintObject c) mem = _
  rw [hname]
  change m.paintObject c name mem = _
  rw [paintObject, Run.bind_of_eq himage]
  dsimp only
  rw [if_pos hmode, paintImage, Run.bind_of_eq hdata]
  dsimp only
  rw [hpixels]
  rfl

theorem Uses.first {m : Machine} {o : Operation} {rest : List Operation} {mem mem' : Memory}
    {form : Form} (h : Uses c m [o] mem form mem') : Uses c m (o :: rest) mem form mem' := by
  cases h with
  | here hop hname hx => exact .here hop hname hx
  | later _ h => cases h

theorem perform_congr {m : Machine} {o : Operation} {mem : Memory}
    (h : ∀ form mem', Uses c m [o] mem form mem' → c.invoke form mem' = invoke' form mem') :
    m.perform c o mem = m.perform { c with invoke := invoke' } o mem := by
  rw [perform_eq, perform_eq]
  cases hk : o.op.kind with
  | object =>
    dsimp only
    cases hname : o.name 0 with
    | error fault => rfl
    | ok name =>
      simp only [orReject, paintObject]
      rcases hx : c.scopes.xobject? c.lib name mem with ⟨p | _ | ⟨image⟩ | ⟨form⟩, mem'⟩
      · rw [Run.bind_of_error (congrArg Prod.fst hx), Run.bind_of_error (congrArg Prod.fst hx)]
      · rw [Run.bind_of_eq hx, Run.bind_of_eq hx]
      · rw [Run.bind_of_eq hx, Run.bind_of_eq hx]
        rfl
      · have huse := h _ _ (.here (Operator.eq_paintXObject hk) hname hx)
        rw [Run.bind_of_eq hx, Run.bind_of_eq hx]
        exact Run.bind_congr_apply huse
  | _ => rfl

/-- **Operations ask for the forms that they use and for no others.** -/
theorem performAll_congr {m : Machine} {ops : List Operation} {mem : Memory}
    (h : ∀ form mem', Uses c m ops mem form mem' → c.invoke form mem' = invoke' form mem') :
    m.performAll c ops mem = m.performAll { c with invoke := invoke' } ops mem := by
  induction ops generalizing m mem with
  | nil => rfl
  | cons o rest ih =>
    have hfirst : m.perform c o mem = m.perform { c with invoke := invoke' } o mem :=
      perform_congr fun form mem' huse => h form mem' huse.first
    -- both go on from one machine in one memory
    rw [performAll_cons, performAll_cons, ← hfirst]
    rcases hrun : m.perform c o mem with ⟨p | outcome, mem'⟩
    · rfl
    · dsimp only
      cases hresult : outcome.result with
      | error e => rfl
      | ok n =>
        have hn := Run.next?_of_result (congrArg Prod.fst hrun) hresult
        refine ih fun form mem₁ huse => h form mem₁ (.later hn ?_)
        rwa [hrun]

theorem not_uses {m : Machine} {ops : List Operation} {mem mem' : Memory} {form : Form}
    (h : ∀ o ∈ ops, o.op.kind ≠ .object) : ¬ Uses c m ops mem form mem' := by
  intro huse
  induction huse with
  | here hop _ _ => exact h _ List.mem_cons_self (hop ▸ rfl)
  | later _ _ ih => exact ih fun o ho => h o (List.mem_cons_of_mem _ ho)

/-- Operations that use no form use none whatever would come of forms. -/
theorem not_uses_of_invoke {m : Machine} {ops : List Operation} {mem : Memory}
    (h : ∀ form mem', ¬ Uses c m ops mem form mem') {form : Form} {mem' : Memory} :
    ¬ Uses { c with invoke := invoke' } m ops mem form mem' := by
  intro huse
  induction huse with
  | here hop hname hx => exact h _ _ (.here hop hname hx)
  | @later m n o rest mem _ _ hn _ ih =>
    -- the first operation uses no form, so it leads to the same machine and memory
    have hfirst : m.perform c o mem = m.perform { c with invoke := invoke' } o mem :=
      perform_congr fun form mem' huse => absurd huse.first (h form mem')
    have hnext : (m.perform c o).next? mem = some n := by
      unfold Run.next? at hn ⊢
      rwa [hfirst]
    rw [← hfirst] at ih
    exact ih fun form mem' huse => h form mem' (.later hnext huse)

/-- A form that is used is the form of a stream that one of the scopes names. -/
theorem Uses.formStream {m : Machine} {ops : List Operation} {mem mem' : Memory} {form : Form}
    (h : Uses c m ops mem form mem') :
    ∃ s ∈ c.scopes, ∃ name stream state, s.formStream? c.lib name = some stream ∧
      form.anonymous = (Form.ofStream c.lib stream).usedIn c.scopes state := by
  induction h with
  | @here m _ _ _ _ name f _ _ hx =>
    obtain ⟨s, hs, stream, hstream, hform⟩ := Scopes.form_of_xobject hx
    refine ⟨s, hs, name, stream, m.state, hstream, ?_⟩
    rw [← hform]
    rfl
  | later _ _ ih => exact ih

end Machine

/-! ## Readings -/

namespace Content

theorem scene_congr {c : Context} {invoke' : Form → Run Scene} {state : GraphicsState}
    {data : Bytes}
    (h : ∀ form mem mem', (Machine.start state).Uses c (Operation.readAll data) mem form mem' →
      c.invoke form mem' = invoke' form mem') :
    scene c state data = scene { c with invoke := invoke' } state data := by
  funext mem
  exact Run.bind_congr_apply (Machine.performAll_congr fun form mem' => h form mem mem')

/-- A reading of content: what it reads, and which forms it may still open. -/
structure Reading where
  /-- How deep forms may be nested in it. -/
  room : Nat
  /-- The forms that are being read, itself included. -/
  inProgress : List ObjRef
  scopes : Scopes
  state : GraphicsState
  data : Bytes

namespace Reading

/-- The reading of content that no form contains. -/
def root (options : Options) (scopes : Scopes) (state : GraphicsState) (data : Bytes) : Reading :=
  ⟨options.formDepth, [], scopes, state, data⟩

/-- The reading that a form opens; none if the form is refused or cannot be decoded. -/
def enter (lib : Library) (r : Reading) (form : Form) : Run (Option Reading) :=
  match r.room with
  | 0 => pure none
  | room + 1 =>
    if inUse r.inProgress form then pure none
    else do
      match ← form.data lib with
      | .error _ => pure none
      | .ok decoded =>
        pure (some
          { room
            inProgress := r.inProgress ++ form.ref.toList
            scopes := form.scopes
            state := form.initialState
            data := decoded.data })

variable (lib : Library) (mode : Mode) (options : Options) (r : Reading)

def context : Context :=
  { lib
    mode
    recordText := options.recordText
    scopes := r.scopes
    invoke := invoke lib mode options r.room r.inProgress }

def run : Run (Except Error Machine) :=
  (Machine.start r.state).performAll (r.context lib mode options) (Operation.readAll r.data)

def scene : Run (Except Error Scene) := Content.scene (r.context lib mode options) r.state r.data

/-- What comes of the content for whatever opens it: nothing, if it cannot be read to the end. -/
def yield : Run Scene := do
  match ← r.scene lib mode options with
  | .ok s => pure s
  | .error _ => pure .empty

theorem scene_eq : r.scene lib mode options = Except.map Machine.scene <$> r.run lib mode options := by
  unfold scene Content.scene run
  refine bind_congr fun result => ?_
  cases result <;> rfl

variable {lib mode options r}

theorem yield_of_run {m : Machine} {mem : Memory}
    (h : (r.run lib mode options mem).1 = .ok (.ok m)) :
    r.yield lib mode options mem = (.ok m.scene, (r.run lib mode options mem).2) := by
  unfold yield
  rw [scene_eq, Run.bind_of_eq (Run.map_of_ok h)]
  rfl

/-- **What a reading that is opened is**: the content of a form that there is room for and that is
not being read already. -/
theorem enter_eq_some {form : Form} {child : Reading} {mem mem' : Memory}
    (h : r.enter lib form mem = (.ok (some child), mem')) :
    r.room = child.room + 1 ∧ inUse r.inProgress form = false ∧
      child.inProgress = r.inProgress ++ form.ref.toList ∧ child.scopes = form.scopes ∧
      child.state = form.initialState ∧
      ∃ decoded, form.data lib mem = (.ok (.ok decoded), mem') ∧ child.data = decoded.data := by
  unfold enter at h
  cases hroom : r.room with
  | zero => rw [hroom] at h; cases h
  | succ room =>
    rw [hroom] at h
    cases huse : inUse r.inProgress form with
    | true => rw [huse] at h; cases h
    | false =>
      rw [huse] at h
      obtain ⟨e | decoded, mem₁, hdata, h⟩ := Run.bind_eq_iff.mp h
      · cases h
      · cases h
        exact ⟨rfl, rfl, rfl, rfl, rfl, decoded, hdata, rfl⟩

/-- A form that is not refused and that can be decoded opens a reading. -/
theorem enter_of_data {form : Form} {room : Nat} {decoded : Decoded} {mem mem' : Memory}
    (hroom : r.room = room + 1) (huse : inUse r.inProgress form = false)
    (hdata : form.data lib mem = (.ok (.ok decoded), mem')) :
    r.enter lib form mem =
      (.ok (some
        ⟨room, r.inProgress ++ form.ref.toList, form.scopes, form.initialState, decoded.data⟩),
        mem') := by
  unfold enter
  rw [hroom]
  simp only [huse, Bool.false_eq_true, if_false]
  rw [Run.bind_of_eq hdata]
  rfl

end Reading

section

variable {lib : Library} {mode : Mode} {options : Options}

theorem interpret_eq (scopes : Scopes) (state : GraphicsState) (data : Bytes) :
    interpret lib mode options scopes state data =
      (Reading.root options scopes state data).scene lib mode options := rfl

/-- Content that is carried out to the end comes to what the machine shows then. -/
theorem interpret_of_performAll {scopes : Scopes} {state : GraphicsState} {data : Bytes}
    {n : Machine} {mem mem' : Memory}
    (h : (Machine.start state).performAll
      ((Reading.root options scopes state data).context lib mode options) (Operation.readAll data)
      mem = (.ok (.ok n), mem')) :
    interpret lib mode options scopes state data mem = (.ok (.ok n.scene), mem') :=
  Run.bind_of_eq h

/-- **What comes of a form** is what the reading that it opens yields. -/
theorem invoke_eq (r : Reading) (form : Form) :
    invoke lib mode options r.room r.inProgress form = (do
      match ← r.enter lib form with
      | none => pure .empty
      | some child => child.yield lib mode options) := by
  cases hroom : r.room with
  | zero => simp only [invoke, Reading.enter, hroom]; rfl
  | succ room =>
    simp only [invoke, Reading.enter, hroom]
    cases inUse r.inProgress form with
    | true => rfl
    | false =>
      simp only [Bool.false_eq_true, if_false, formScene, bind_assoc]
      refine bind_congr fun data => ?_
      cases data <;> rfl

/-- A form that opens a reading which comes to an end adds what that reading has painted. -/
theorem Reading.perform_form {r child : Reading} {m n : Machine} {o : Operation} {name : String}
    {form : Form} {mem mem₁ mem₂ : Memory} (hop : o.op = .paintXObject)
    (hname : o.name 0 = .ok name)
    (hform : r.scopes.xobject? lib name mem = (.ok (some (.form form)), mem₁))
    (henter : r.enter lib (form.usedIn r.scopes m.state) mem₁ = (.ok (some child), mem₂))
    (hrun : (child.run lib mode options mem₂).1 = .ok (.ok n)) :
    m.perform (r.context lib mode options) o mem =
      (.ok (.done (m.splice n.scene)), (child.run lib mode options mem₂).2) := by
  have hinvoke : invoke lib mode options r.room r.inProgress (form.usedIn r.scopes m.state) mem₁ =
      (.ok n.scene, (child.run lib mode options mem₂).2) := by
    rw [invoke_eq, Run.bind_of_eq henter]
    exact Reading.yield_of_run hrun
  rw [Machine.perform_form (c := r.context lib mode options) hop hname hform]
  exact Run.bind_of_eq hinvoke

/-- A form that sees the scopes of what uses it, and that uses no form, might as well be read there.
-/
theorem Reading.run_withoutForms {r child : Reading} {n : Machine} {mem : Memory}
    (hscopes : child.scopes = r.scopes)
    (hforms : ∀ form mem', ¬ (Machine.start child.state).Uses (child.context lib mode options)
      (Operation.readAll child.data) mem form mem')
    (hrun : (child.run lib mode options mem).1 = .ok (.ok n)) :
    ((Machine.start child.state).performAll (r.context lib mode options)
        (Operation.readAll child.data) mem).1 = .ok (.ok n) ∧
      ∀ form mem', ¬ (Machine.start child.state).Uses (r.context lib mode options)
        (Operation.readAll child.data) mem form mem' := by
  -- the two contexts differ in what comes of forms, which nothing asks for
  have hcontext : { child.context lib mode options with
      invoke := (r.context lib mode options).invoke } = r.context lib mode options := by
    simp [Reading.context, hscopes]
  refine ⟨?_, fun _ _ => hcontext ▸ Machine.not_uses_of_invoke hforms⟩
  rw [← hcontext, ← Machine.performAll_congr fun form mem' h => absurd h (hforms form mem')]
  exact hrun

end

variable (lib : Library) (mode : Mode) (options : Options)

/-- Readings nested in a reading, with how deep they are and the memories in which the two start. -/
inductive Nested : Nat → Reading → Memory → Reading → Memory → Prop where
  | self {r : Reading} {mem : Memory} : Nested 0 r mem r mem
  | inner {depth : Nat} {r child s : Reading} {mem mem₁ mem₂ mem' : Memory} {form : Form} :
      (Machine.start r.state).Uses (r.context lib mode options) (Operation.readAll r.data) mem
        form mem₁ →
      r.enter lib form mem₁ = (.ok (some child), mem₂) →
      Nested depth child mem₂ s mem' → Nested (depth + 1) r mem s mem'

end Content

end PdfScene
