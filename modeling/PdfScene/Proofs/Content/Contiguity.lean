import PdfScene.Proofs.Content.Step

/-!
# Strings that follow each other

A string that is shown ends where the next one starts: the item recorded for it has as its end the point
that the item recorded for the next one has as its origin, not nearly, but by the same computation on the
same doubles. `Machine.performAll_contiguous` says so of any operations that do nothing but show text,
within the array of one of them and from one to the next, as long as no number comes between the two
strings.

Such operations go through the things that they show one by one, so what they record is a function of
these things and of the state before them, `GraphicsState.recorded`, and what they change in the state is
the text matrix alone, `GraphicsState.past`.
-/

set_option autoImplicit false

namespace PdfScene

/-- The things that an operation shows: its string, or the items of its array. An operation that is
rejected shows none. -/
def Operation.shownItems (o : Operation) : List Obj :=
  match o.op with
  | .showText => ((o.bytes 0).toOption.map Obj.str).toList
  | .showSpacedText => (o.array 0).toOption.getD []
  | _ => []

/-! ## One thing after the other -/

namespace GraphicsState

variable {s : GraphicsState}

/-- The state once the text matrix has moved along its line. -/
def advance (s : GraphicsState) (x : Float) : GraphicsState := { s with text := s.text.advance x }

/-- The state past a thing that is shown. -/
def past (s : GraphicsState) (item : Obj) : GraphicsState :=
  match item with
  | .num x => s.advance (s.text.adjustment x)
  | .str bs | .hexStr bs => s.advance (s.text.stringAdvance bs)
  | _ => s

/-- What is recorded of a string that is shown. -/
def itemOf (s : GraphicsState) (bs : Bytes) : TextItem :=
  .ofShown (s.text.stringText bs) (s.text.stringAdvance bs) s

/-- What is recorded of some things that are shown one after the other. -/
def recorded (s : GraphicsState) : List Obj → List TextItem
  | [] => []
  | item :: rest => (item.bytes?.map s.itemOf).toList ++ (s.past item).recorded rest

theorem recorded_append (items rest : List Obj) :
    s.recorded (items ++ rest) = s.recorded items ++ (items.foldl past s).recorded rest := by
  induction items generalizing s with
  | nil => rfl
  | cons item items ih =>
    rw [List.cons_append, recorded, recorded, ih, List.append_assoc]
    rfl

/-- Nothing that is shown changes anything but the text matrix. -/
theorem exists_foldl_past (s : GraphicsState) (items : List Obj) :
    ∃ matrix, items.foldl past s = { s with text := { s.text with matrix } } := by
  induction items generalizing s with
  | nil => exact ⟨s.text.matrix, rfl⟩
  | cons item items ih =>
    obtain ⟨matrix, h⟩ := ih (s.past item)
    refine ⟨matrix, h.trans ?_⟩
    cases item <;> rfl

theorem recorded_texts (items : List Obj) :
    (s.recorded items).map TextItem.text = (items.filterMap Obj.bytes?).map s.text.stringText := by
  induction items generalizing s with
  | nil => rfl
  | cons item items ih =>
    -- the text of a string does not depend on where it is shown
    have hpast : (s.past item).text.stringText = s.text.stringText := by
      cases item <;> rfl
    rw [recorded, List.map_append, ih, hpast]
    cases item <;> rfl

/-- **A string ends where the next one starts**, unless a number comes between them: both are the origin
moved by the advance of the string, through the text matrix and the matrix in effect. -/
theorem recorded_contiguous (s : GraphicsState) {x y : Obj} {between : List Obj} {bs : Bytes}
    (hbs : x.bytes? = some bs) (hy : y.bytes?.isSome) (rest : List Obj)
    (hbetween : ∀ o ∈ between, o.num? = none ∧ o.bytes? = none) :
    ∃ first second others, s.recorded (x :: (between ++ y :: rest)) = first :: second :: others ∧
      first.origin = (s.text.matrix * s.ctm).apply (0, 0) ∧
      first.stop =
        (.translate (s.text.stringAdvance bs) 0 * s.text.matrix * s.ctm).apply (0, 0) ∧
      first.stop = second.origin := by
  -- what comes between the two moves nothing and records nothing
  have hskip (t : GraphicsState) : t.recorded (between ++ y :: rest) = t.recorded (y :: rest) := by
    clear hy
    induction between with
    | nil => rfl
    | cons o between ih =>
      obtain ⟨⟨hnum, hbytes⟩, hrest⟩ := List.forall_mem_cons.mp hbetween
      have hpast : t.past o = t := by
        cases o with
        | num x => cases hnum
        | str bs => cases hbytes
        | hexStr bs => cases hbytes
        | _ => rfl
      rw [List.cons_append, recorded, hbytes, hpast, ih hrest]
      rfl
  obtain ⟨cs, hcs⟩ := Option.isSome_iff_exists.mp hy
  have hpast : s.past x = s.advance (s.text.stringAdvance bs) := by
    cases x <;> cases hbs <;> rfl
  refine ⟨s.itemOf bs, (s.past x).itemOf cs, ((s.past x).past y).recorded rest, ?_, rfl, rfl, ?_⟩
  · rw [recorded, hskip, recorded, hbs, hcs]
    rfl
  · rw [hpast]
    rfl

end GraphicsState

/-! ## From the operations to what they show -/

namespace Machine

variable {c : Context} {m : Machine} {b : TextBlock}

/-- The machine once it has shown some things in a text object. -/
def shownIn (m : Machine) (b : TextBlock) (items : List Obj) : Machine :=
  { m with
    state := items.foldl GraphicsState.past m.state
    block := some (b.append (m.state.recorded items)) }

theorem shownIn_nil (hb : m.block = some b) : m.shownIn b [] = m := by
  obtain ⟨state, saved, path, pendingClip, scene, block⟩ := m
  cases hb
  simp [shownIn, GraphicsState.recorded, TextBlock.append]

/-- What is no string is not recorded. -/
theorem shownIn_of_not_bytes (hb : m.block = some b) {item : Obj} (h : item.bytes? = none) :
    m.shownIn b [item] = { m with state := m.state.past item } := by
  obtain ⟨state, saved, path, pendingClip, scene, block⟩ := m
  cases hb
  simp [shownIn, GraphicsState.recorded, TextBlock.append, h]

theorem shownIn_append (items rest : List Obj) :
    (m.shownIn b items).shownIn (b.append (m.state.recorded items)) rest =
      m.shownIn b (items ++ rest) := by
  unfold shownIn
  dsimp only
  rw [GraphicsState.recorded_append, List.foldl_append]
  simp [TextBlock.append]

theorem showText_eq (record : Bool) (hb : m.block = some b) (bs : Bytes) :
    m.showText .text record bs = m.shownIn b [.str bs] := by
  unfold showText recordText
  dsimp only
  rw [hb]
  rfl

theorem showSpaced_eq (record : Bool) (hb : m.block = some b) (items : List Obj) :
    m.showSpaced .text record items = m.shownIn b items := by
  induction items generalizing m b with
  | nil => exact (shownIn_nil hb).symm
  | cons item items ih =>
    have hone : m.showSpaced .text record [item] = m.shownIn b [item] := by
      cases item with
      | str bs => exact showText_eq record hb bs
      | hexStr bs => exact showText_eq record hb bs
      | _ => rw [shownIn_of_not_bytes hb] <;> rfl
    calc m.showSpaced .text record (item :: items)
        = (m.showSpaced .text record [item]).showSpaced .text record items := rfl
      _ = (m.shownIn b [item]).showSpaced .text record items := by rw [hone]
      _ = m.shownIn b (item :: items) := by
        rw [ih rfl, shownIn_append]
        rfl

theorem perform_shown (hc : c.mode = .text) (hb : m.block = some b) {o : Operation}
    (ho : o.op = .showText ∨ o.op = .showSpacedText) (mem : Memory) :
    ∃ outcome, m.perform c o mem = (.ok outcome, mem) ∧
      outcome.result = .ok (m.shownIn b o.shownItems) := by
  have hkind : o.op.kind = .text := by
    rcases ho with h | h <;> rw [h] <;> rfl
  rw [perform_eq, hkind, hc]
  unfold Operation.shown Operation.shown? Operation.shownItems
  rcases ho with h | h <;> rw [h] <;> dsimp only
  · cases o.bytes 0 with
    | error fault => exact ⟨_, rfl, congrArg Except.ok (shownIn_nil hb).symm⟩
    | ok bs => exact ⟨_, rfl, congrArg Except.ok (showText_eq c.recordText hb bs)⟩
  · cases o.array 0 with
    | error fault => exact ⟨_, rfl, congrArg Except.ok (shownIn_nil hb).symm⟩
    | ok items => exact ⟨_, rfl, congrArg Except.ok (showSpaced_eq c.recordText hb items)⟩

theorem performAll_shown (hc : c.mode = .text) (hb : m.block = some b) {ops : List Operation}
    (hops : ∀ o ∈ ops, o.op = .showText ∨ o.op = .showSpacedText) (mem : Memory) :
    m.performAll c ops mem =
      (.ok (.ok (m.shownIn b (ops.flatMap Operation.shownItems))), mem) := by
  induction ops generalizing m b with
  | nil =>
    rw [List.flatMap_nil, shownIn_nil hb]
    rfl
  | cons o ops ih =>
    obtain ⟨ho, hrest⟩ := List.forall_mem_cons.mp hops
    obtain ⟨outcome, hperform, hresult⟩ := perform_shown hc hb ho mem
    rw [performAll_cons, hperform]
    dsimp only
    rw [hresult]
    dsimp only
    rw [ih rfl hrest, shownIn_append, List.flatMap_cons]

/-- **Recorded strings are contiguous.** Operations that do nothing but show text in an open text object
change the text matrix and nothing else of how text is shown. They record their strings in order. Of two
between which no number comes, the first goes from the origin to its advance, through the text matrix
that it is shown under, and ends where the second starts. -/
theorem performAll_contiguous (hc : c.mode = .text) (hb : m.block = some b) {ops : List Operation}
    (hops : ∀ o ∈ ops, o.op = .showText ∨ o.op = .showSpacedText) (mem : Memory) :
    ∃ recorded matrix,
      m.performAll c ops mem =
        (.ok (.ok { m with
          state := { m.state with text := { m.state.text with matrix } }
          block := some (b.append recorded) }), mem) ∧
      recorded.map TextItem.text =
        ((ops.flatMap Operation.shownItems).filterMap Obj.bytes?).map m.state.text.stringText ∧
      ∀ before x between y rest,
        ops.flatMap Operation.shownItems = before ++ x :: (between ++ y :: rest) →
        ∀ bs, x.bytes? = some bs → y.bytes?.isSome →
        (∀ o ∈ between, o.num? = none ∧ o.bytes? = none) →
        ∃ earlier first second later, recorded = earlier ++ first :: second :: later ∧
          earlier.length = (before.filterMap Obj.bytes?).length ∧
          (∃ tm : Affine Float, first.origin = (tm * m.state.ctm).apply (0, 0) ∧
            first.stop =
              (.translate (m.state.text.stringAdvance bs) 0 * tm * m.state.ctm).apply (0, 0)) ∧
          first.stop = second.origin := by
  rw [performAll_shown hc hb hops]
  generalize ops.flatMap Operation.shownItems = items
  obtain ⟨matrix, hmoved⟩ := GraphicsState.exists_foldl_past m.state items
  refine ⟨m.state.recorded items, matrix, ?_, GraphicsState.recorded_texts items, ?_⟩
  · unfold shownIn
    rw [hmoved]
  · rintro before x between y rest rfl bs hbs hy hbetween
    rw [GraphicsState.recorded_append]
    obtain ⟨first, second, later, hrecorded, horigin, hstop, hmeet⟩ :=
      GraphicsState.recorded_contiguous (before.foldl GraphicsState.past m.state) hbs hy rest hbetween
    obtain ⟨tm, hbefore⟩ := GraphicsState.exists_foldl_past m.state before
    rw [hbefore] at horigin hstop
    refine ⟨m.state.recorded before, first, second, later, ?_, ?_, ⟨tm, horigin, hstop⟩, hmeet⟩
    · rw [hrecorded]
    · simpa using congrArg List.length (GraphicsState.recorded_texts (s := m.state) before)

/-- Three strings, of which two are in one array with a null between them and the last is shown by an
operation of its own. -/
theorem performAll_contiguous_spread :
    let c : Context := ⟨.empty, .text, true, [], fun _ => pure .empty⟩
    let m := (Machine.start .initial).beginText .text
    let mem := Memory.initial .empty 1
    let ops : List Operation := [⟨.showSpacedText, [.array [.str [65], .null, .str [66]]]⟩,
      ⟨.showText, [.hexStr [67]]⟩]
    ∃ final one two three, m.performAll c ops mem = (.ok (.ok final), mem) ∧
      final.block = some ⟨[one, two, three]⟩ ∧ one.stop = two.origin ∧ two.stop = three.origin := by
  intro c m mem ops
  have hops : ∀ o ∈ ops, o.op = .showText ∨ o.op = .showSpacedText := by simp [ops]
  obtain ⟨recorded, matrix, hrun, htexts, hmeet⟩ :=
    performAll_contiguous (c := c) (m := m) (b := .empty) rfl rfl hops mem
  obtain ⟨one, two, three, rfl⟩ : ∃ one two three, recorded = [one, two, three] := by
    apply List.length_eq_three.mp
    exact (List.length_map _).symm.trans (congrArg List.length htexts)
  have hnull : ∀ o ∈ [Obj.null], o.num? = none ∧ o.bytes? = none := by simp [Obj.num?, Obj.bytes?]
  refine ⟨_, one, two, three, hrun, rfl, ?_, ?_⟩
  · obtain ⟨earlier, first, second, later, heq, hlength, -, hstop⟩ :=
      hmeet [] (.str [65]) [.null] (.str [66]) [.str [67]] rfl [65] rfl rfl hnull
    obtain rfl := List.length_eq_zero_iff.mp hlength
    cases heq
    exact hstop
  · obtain ⟨earlier, first, second, later, heq, hlength, -, hstop⟩ :=
      hmeet [.str [65], .null] (.str [66]) [] (.str [67]) [] rfl [66] rfl rfl (by simp)
    obtain ⟨e, rfl⟩ := List.length_eq_one_iff.mp hlength
    cases heq
    exact hstop

end Machine

end PdfScene
