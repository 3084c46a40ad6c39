import PdfScene.Document.Page
import PdfScene.Proofs.Content.Rereading

/-!
# Pages read afresh

What is made of a page does not depend on when it is made. `Page.contentAfresh` and
`Page.textAfresh` are what a page that has never been read comes to, with nothing remembered of
anything; a page is `Page.Faithful` if what it holds is that. Whatever may be done with a page,
loading it, reading its text, painting it or letting go of its content, leaves it faithful and the
memory sound: `Page.Keeps`.

All of this is about pages of which everything that they name comes up in the library, as it does
for the leaves of a page tree.
-/

set_option autoImplicit false

namespace PdfScene

open Run

/-! ## What a page names comes up -/

/-- The nodes in which the entries of a page are looked up come up. -/
def Leaf.Held (lib : Library) (roots : List Dict) (leaf : Leaf) : Prop :=
  ∀ d ∈ leaf.lineage, lib.HoldsDict roots d

namespace Leaf

variable {lib : Library} {roots : List Dict} {leaf : Leaf}

theorem Held.dict (h : leaf.Held lib roots) : lib.HoldsDict roots leaf.dict :=
  h _ List.mem_cons_self

theorem Held.resources (h : leaf.Held lib roots) : lib.HoldsDict roots (leaf.resources lib) := by
  unfold Leaf.resources
  cases hd : leaf.lineage.findSome? lib.resources? with
  | none => exact fun _ he => absurd he List.not_mem_nil
  | some d =>
    obtain ⟨node, hnode, hfound⟩ := List.exists_of_findSome?_eq_some hd
    exact (h node hnode).dict hfound

theorem Held.contentEntries (h : leaf.Held lib roots) :
    ∀ o ∈ Page.contentEntries lib leaf, lib.Holds roots o := by
  unfold Page.contentEntries
  cases ho : leaf.dict.get? "Contents" with
  | none => exact fun _ hmem => absurd hmem List.not_mem_nil
  | some o =>
    have hheld : lib.Holds roots o := h.dict.entry ho
    dsimp only
    cases hitems : (lib.resolve o).array? with
    | none => exact fun _ hmem => List.mem_singleton.mp hmem ▸ hheld
    | some items => exact hheld.resolve.items hitems

/-- The appearance of an annotation is a stream that the annotation names. -/
theorem holds_appearance {a : Annotation} {o : Obj} {s : StreamObj} (ho : lib.Holds roots o)
    (ha : Annotation.read? lib o = some a) (hs : a.appearance = some s) :
    lib.HoldsStream roots s := by
  obtain ⟨d, hd, ha⟩ := Option.bind_eq_some_iff.mp ha
  obtain ⟨rect, _, ha⟩ := Option.bind_eq_some_iff.mp ha
  cases ha
  have hheld : lib.HoldsDict roots d := ho.resolve.dict hd
  change Annotation.readAppearance lib d = some s at hs
  unfold Annotation.readAppearance at hs
  cases hnormal : (lib.dict? d "AP").bind fun appearances => lib.get? appearances "N" with
  | none => rw [hnormal] at hs; cases hs
  | some normal =>
    rw [hnormal] at hs
    obtain ⟨appearances, happearances, hget⟩ := Option.bind_eq_some_iff.mp hnormal
    have hfound : lib.Holds roots normal := (hheld.dict happearances).get hget
    dsimp only at hs
    cases hstream : normal.stream? with
    | some s' =>
      rw [hstream] at hs
      cases hs
      exact hfound.stream hstream
    | none =>
      rw [hstream] at hs
      obtain ⟨states, hstates, hs⟩ := Option.bind_eq_some_iff.mp hs
      obtain ⟨state, _, hs⟩ := Option.bind_eq_some_iff.mp hs
      exact (hfound.dict hstates).stream hs

theorem Held.appearance {a : Annotation} {s : StreamObj} (h : leaf.Held lib roots)
    (ha : a ∈ Page.readAnnotations lib leaf) (hs : a.appearance = some s) :
    lib.HoldsStream roots s := by
  obtain ⟨o, ho, hread⟩ := List.mem_filterMap.mp ha
  cases hitems : lib.array? leaf.dict "Annots" with
  | none => rw [hitems] at ho; exact absurd ho List.not_mem_nil
  | some items =>
    rw [hitems] at ho
    exact holds_appearance (h.dict.items hitems o ho) hread hs

end Leaf

/-! ## Reading a page -/

/-- Two contents of a page that differ in the numbers issued on the way at most. -/
structure PageContent.Alike (a b : PageContent) : Prop where
  scope : a.scope.dict = b.scope.dict
  annotations : a.annotations = b.annotations
  data : a.data = b.data
  shapes : a.shapes.anonymous = b.shapes.anonymous

namespace Page

variable {lib : Library} {options : Options} {roots : List Dict}

/-- The streams of a page's content decode to the same data whatever is remembered. -/
theorem readEntries_steady {S T : Scopes} (hco : lib.Coherent roots) {entries : List Obj}
    (hentries : ∀ o ∈ entries, lib.Holds roots o) (first : Bool) (data : Array UInt8)
    (refs : List ObjRef) : Steady lib roots S T (readEntries lib first data refs entries) := by
  induction entries generalizing first data refs with
  | nil => exact Steady.pure _
  | cons o rest ih =>
    obtain ⟨ho, hrest⟩ := List.forall_mem_cons.mp hentries
    unfold readEntries
    cases hs : (lib.resolve o).stream? with
    | none => exact ih hrest _ _ _
    | some s =>
      refine (Steady.decode hco (ho.resolve.stream hs)).bind fun r => ?_
      cases r with
      | error e => exact Steady.pure _
      | ok decoded => exact ih hrest _ _ _

variable (lib options) in
/-- Reading a page once its scope has been made. -/
def readIn (leaf : Leaf) (scope : Scope) : Run PageContent := do
  let annotations := readAnnotations lib leaf
  let (data, refs) ← readEntries lib true #[] [] (contentEntries lib leaf)
  match data with
  | none => pure ⟨scope, annotations, [], refs, #[], none⟩
  | some data =>
    match ← Content.interpret lib .shapes options [scope] .initial data with
    | .ok scene => pure ⟨scope, annotations, data, refs, scene.shapes, none⟩
    | .error _ => pure ⟨scope, annotations, data, refs, #[], none⟩

theorem read_eq (leaf : Leaf) :
    read lib options leaf = Scope.create (leaf.resources lib) >>= readIn lib options leaf := rfl

theorem readIn_agree {s t : Scope} {leaf : Leaf} (hco : lib.Coherent roots)
    (hleaf : leaf.Held lib roots) (hst : s.dict = t.dict) :
    Agree lib roots [s] [t]
      (fun a b => (a.Alike b ∧ a.text = none) ∧ a.scope = s ∧ b.scope = t)
      (readIn lib options leaf s) (readIn lib options leaf t) := by
  refine Agree.bind (readEntries_steady hco hleaf.contentEntries true #[] []) fun found _ heq => ?_
  subst heq
  obtain ⟨data, refs⟩ := found
  cases data with
  | none => exact Agree.pure ⟨⟨⟨hst, rfl, rfl, rfl⟩, rfl⟩, rfl, rfl⟩
  | some data =>
    refine Agree.bind (Content.interpret_agree hco (List.Forall₂.cons hst .nil) .initial data)
      fun r r' hr => ?_
    cases hr with
    | ok h => exact Agree.pure ⟨⟨⟨hst, rfl, rfl, h.shapes⟩, rfl⟩, rfl, rfl⟩
    | error e e' => exact Agree.pure ⟨⟨⟨hst, rfl, rfl, rfl⟩, rfl⟩, rfl, rfl⟩

variable (options) in
/-- **A page is read alike from two memories**, each of which is then sound for the scope of the page
as well. -/
theorem read_agree {F G : Scopes} {m n : Memory} {leaf : Leaf} (hco : lib.Coherent roots)
    (hleaf : leaf.Held lib roots) (hm : m.Sound lib roots F) (hn : n.Sound lib roots G) :
    Panic.Rel (fun a b => a.Alike b ∧ a.text = none) (read lib options leaf m).1
        (read lib options leaf n).1 ∧
      ∀ content m', read lib options leaf m = (.ok content, m') →
        m'.Sound lib roots (content.scope :: F) := by
  rw [read_eq, bind_of_eq (Scope.create_apply _ m), bind_of_eq (Scope.create_apply _ n)]
  have hm' := hm.create hleaf.resources
  have hn' := hn.create hleaf.resources
  rw [Scope.create_apply] at hm' hn'
  -- the two scopes are of one dictionary, and nothing else is asked of them
  have hread : Agree lib roots [⟨m.nextScope, leaf.resources lib⟩] [⟨n.nextScope, leaf.resources lib⟩]
      _ (readIn lib options leaf ⟨m.nextScope, leaf.resources lib⟩)
      (readIn lib options leaf ⟨n.nextScope, leaf.resources lib⟩) :=
    readIn_agree hco hleaf rfl
  obtain ⟨hrel, hsound, -⟩ := hread _ _ _ _ (List.cons_subset_cons _ (List.nil_subset F))
    (List.cons_subset_cons _ (List.nil_subset G)) hm' hn'
  refine ⟨hrel.mono fun _ _ h => h.1, fun content m' hrun => ?_⟩
  rw [hrun] at hrel hsound
  generalize (readIn lib options leaf ⟨n.nextScope, leaf.resources lib⟩ _).1 = y at hrel
  cases hrel with
  | ok h => exact h.2.1 ▸ hsound

/-- A page holds the annotations of its leaf. -/
theorem read_annotations {leaf : Leaf} {content : PageContent} {m m' : Memory}
    (h : read lib options leaf m = (.ok content, m')) :
    content.annotations = readAnnotations lib leaf := by
  obtain ⟨scope, _, -, h⟩ := bind_eq_iff.mp h
  obtain ⟨⟨data, refs⟩, _, -, h⟩ := bind_eq_iff.mp h
  cases data with
  | none =>
    cases h
    rfl
  | some data =>
    obtain ⟨result, _, -, h⟩ := bind_eq_iff.mp h
    cases result <;> cases h <;> rfl

/-! ## What a page comes to -/

variable (lib options) in
/-- What a page comes to when it is read with nothing remembered. -/
def contentAfresh (leaf : Leaf) : Except Panic PageContent :=
  (read lib options leaf (.initial lib 0)).1

/-- What the text of some content comes to. -/
def blocksOf : Except Error Scene → List TextBlock
  | .ok scene => scene.blocks.toList
  | .error _ => []

theorem blocksOf_congr {x y : Except Error Scene} (h : Matched Scene.Alike x y) :
    blocksOf x = blocksOf y := by
  cases h with
  | ok h => exact congrArg Array.toList h.blocks
  | error e e' => rfl

variable (lib options) in
/-- The text that a page comes to when it is read with nothing remembered. -/
def textAfresh (leaf : Leaf) : Except Panic (List TextBlock) :=
  (textBlocks lib options (ofLeaf leaf) (.initial lib 0)).1.map Prod.fst

/-- The scope of a page that is loaded. -/
def scopes (p : Page) : Scopes := p.content.toList.map PageContent.scope

variable (lib options roots) in
/-- A page that holds what it would come to, if it holds anything. -/
structure Faithful (p : Page) : Prop where
  held : p.leaf.Held lib roots
  content : ∀ content, p.content = some content →
    ∃ fresh, contentAfresh lib options p.leaf = .ok fresh ∧ content.Alike fresh
  text : ∀ content text, p.content = some content → content.text = some text →
    textAfresh lib options p.leaf = .ok text

theorem Faithful.ofLeaf {leaf : Leaf} (h : leaf.Held lib roots) :
    (ofLeaf leaf).Faithful lib options roots :=
  ⟨h, nofun, nofun⟩

variable (lib options roots) in
/-- What may be done with a page: if it comes to an answer, the page stays faithful, and the memory as
sound as it is. -/
def Keeps {α : Type} (f : Page → Run (α × Page)) : Prop :=
  ∀ (p p' : Page) (F : Scopes) (m m' : Memory) (a : α), p.Faithful lib options roots →
    p.scopes ⊆ F → m.Sound lib roots F → f p m = (.ok (a, p'), m') →
      p'.leaf = p.leaf ∧ p'.Faithful lib options roots ∧ m'.Sound lib roots (p'.scopes ++ F)

/-! ## Loading a page -/

variable {p p' : Page} {F : Scopes} {m m' : Memory} {content : PageContent}
  (hco : lib.Coherent roots) (h : p.Faithful lib options roots)
include hco h

variable (options) in
/-- **A page is loaded as if it had never been loaded before.** -/
theorem load_agree (hm : m.Sound lib roots F) :
    Panic.Rel (fun r fresh => r.1.Alike fresh) (load lib options p m).1
      (contentAfresh lib options p.leaf) := by
  obtain ⟨leaf, content⟩ := p
  cases content with
  | some content =>
    obtain ⟨fresh, hfresh, halike⟩ := h.content content rfl
    rw [hfresh]
    exact .ok halike
  | none =>
    obtain ⟨hrel, -⟩ := read_agree options hco h.held hm (Memory.Sound.initial 0)
    unfold contentAfresh load
    dsimp only at hrel ⊢
    generalize (read lib options leaf (.initial lib 0)).1 = y at hrel ⊢
    rcases hread : read lib options leaf m with ⟨panic | content, m'⟩
    · rw [bind_of_error (congrArg Prod.fst hread)]
      rw [hread] at hrel
      cases hrel with
      | panic => exact .panic panic
    · rw [bind_of_eq hread]
      rw [hread] at hrel
      cases hrel with
      | ok h => exact .ok h.1

/-- A page that has been loaded holds its content. -/
theorem load_spec (hF : p.scopes ⊆ F) (hm : m.Sound lib roots F)
    (hload : load lib options p m = (.ok (content, p'), m')) :
    p' = { p with content := some content } ∧ p'.Faithful lib options roots ∧
      m'.Sound lib roots (p'.scopes ++ F) := by
  have hagree := load_agree options hco h hm
  obtain ⟨leaf, held⟩ := p
  cases held with
  | some held =>
    cases hload
    exact ⟨rfl, h, hm.subset (List.append_subset.mpr ⟨hF, List.Subset.refl F⟩)⟩
  | none =>
    rw [hload] at hagree
    obtain ⟨_, _, hread, hpure⟩ := bind_eq_iff.mp hload
    cases hpure
    obtain ⟨hrel, hsound⟩ := read_agree options hco h.held hm (Memory.Sound.initial 0)
    rw [hread] at hrel
    refine ⟨rfl, ⟨h.held, ?_, ?_⟩, hsound _ _ hread⟩
    · intro content' hcontent
      cases hcontent
      dsimp only at hagree
      generalize contentAfresh lib options leaf = y at hagree
      cases hagree with
      | ok halike => exact ⟨_, rfl, halike⟩
    · intro content' text hcontent hsome
      cases hcontent
      generalize (read lib options leaf (.initial lib 0)).1 = y at hrel
      cases hrel with
      | ok h => exact absurd (h.2.symm.trans hsome) nofun

omit h in
theorem load_keeps : Keeps lib options roots (load lib options) := by
  intro p p' F m m' content h hF hm hload
  obtain ⟨rfl, hfaithful, hsound⟩ := load_spec hco h hF hm hload
  exact ⟨rfl, hfaithful, hsound⟩

/-! ## Reading the text of a page -/

omit hco h in
variable (lib options) in
/-- Reading the text of a page that has been loaded, unless it is held. -/
def readText (content : PageContent) (p : Page) : Run (List TextBlock × Page) :=
  match content.text with
  | some text => pure (text, p)
  | none => do
    let text := blocksOf (← Content.interpret lib .text options [content.scope] .initial content.data)
    pure (text, { p with content := some { content with text := some text } })

omit hco h in
theorem textBlocks_eq (p : Page) : textBlocks lib options p = (do
    let (content, p) ← load lib options p
    readText lib options content p) := by
  unfold textBlocks
  refine bind_congr fun (content, p) => ?_
  unfold readText
  dsimp only
  cases content.text with
  | some text => rfl
  | none => exact bind_congr fun result => by cases result <;> rfl

omit h in
variable (options) in
/-- Text that is read from what a page holds is the text of the page read afresh. -/
theorem readText_agree {a b : PageContent} (p q : Page) (hab : a.Alike b) (ha : a.text = none)
    (hb : b.text = none) :
    Agree lib roots [a.scope] [b.scope] (fun r r' => r.1 = r'.1) (readText lib options a p)
      (readText lib options b q) := by
  unfold readText
  rw [ha, hb, hab.data]
  refine Agree.bind (Content.interpret_agree hco (List.Forall₂.cons hab.scope .nil) .initial b.data)
    fun result result' hmatched => ?_
  exact Agree.pure (blocksOf_congr hmatched)

variable (options) in
/-- **The text of a page is read as if it had never been read before.** -/
theorem textBlocks_agree (hF : p.scopes ⊆ F) (hm : m.Sound lib roots F) :
    (textBlocks lib options p m).1.map Prod.fst = textAfresh lib options p.leaf := by
  have hagree := load_agree options hco h hm
  obtain ⟨hself, hsound₀⟩ := read_agree options hco h.held (Memory.Sound.initial 0)
    (Memory.Sound.initial 0)
  unfold contentAfresh at hagree
  unfold textAfresh
  rw [textBlocks_eq, textBlocks_eq]
  rcases hread : read lib options p.leaf (.initial lib 0) with ⟨r, m₀⟩
  rw [hread] at hagree hself
  rcases hload : load lib options p m with ⟨panic | ⟨content, p'⟩, m'⟩
  · rw [hload] at hagree
    cases hagree with
    | panic =>
      have hfresh : (load lib options (ofLeaf p.leaf) (.initial lib 0)).1 = .error panic :=
        congrArg Prod.fst (bind_of_error (congrArg Prod.fst hread))
      rw [bind_of_error (congrArg Prod.fst hload), bind_of_error hfresh]
  · rw [hload] at hagree
    obtain ⟨rfl, hfaithful, hsound⟩ := load_spec hco h hF hm hload
    cases hagree with
    | @ok _ fresh halike =>
      have hfresh : load lib options (ofLeaf p.leaf) (.initial lib 0) =
          (.ok (fresh, ⟨p.leaf, some fresh⟩), m₀) := bind_of_eq hread
      rw [bind_of_eq hload, bind_of_eq hfresh]
      cases htext : content.text with
      | some text =>
        have hheld := hfaithful.text content text rfl htext
        unfold textAfresh at hheld
        rw [textBlocks_eq, bind_of_eq hfresh] at hheld
        rw [hheld]
        dsimp only [readText]
        rw [htext]
        rfl
      | none =>
        have hnone : fresh.text = none := by
          cases hself with
          | ok h => exact h.2
        obtain ⟨hrel, -⟩ := readText_agree options hco { p with content := some content }
          ⟨p.leaf, some fresh⟩ halike htext hnone _ _ m' m₀
          (List.cons_subset_cons _ (List.nil_subset F)) (List.cons_subset_cons _ (List.nil_subset []))
          hsound (hsound₀ fresh m₀ hread)
        revert hrel
        generalize (readText lib options content _ m').1 = x
        generalize (readText lib options fresh _ m₀).1 = y
        rintro (hxy | _)
        · exact congrArg Except.ok hxy
        · rfl

omit h in
theorem textBlocks_keeps : Keeps lib options roots (textBlocks lib options) := by
  intro p p' F m m' text h hF hm hrun
  have hagree := textBlocks_agree options hco h hF hm
  rw [hrun] at hagree
  rw [textBlocks_eq] at hrun
  obtain ⟨⟨content, p₁⟩, m₁, hload, hread⟩ := bind_eq_iff.mp hrun
  obtain ⟨rfl, hfaithful, hsound⟩ := load_spec hco h hF hm hload
  dsimp only [readText] at hread
  cases htext : content.text with
  | some held =>
    rw [htext] at hread
    cases hread
    exact ⟨rfl, hfaithful, hsound⟩
  | none =>
    rw [htext] at hread
    obtain ⟨result, m₂, hinterpret, hpure⟩ := bind_eq_iff.mp hread
    cases hpure
    obtain ⟨fresh, hfresh, halike⟩ := hfaithful.content content rfl
    have hkeeps : Run.Keeps lib roots [content.scope]
        (Content.interpret lib .text options [content.scope] .initial content.data) :=
      (Content.interpret_agree hco (.refl _) _ _).keeps
    have hkept := hkeeps (content.scope :: F) m₁ (List.cons_subset_cons _ (List.nil_subset F)) hsound
    rw [hinterpret] at hkept
    refine ⟨rfl, ⟨h.held, ?_, ?_⟩, hkept⟩
    · intro content' hcontent
      cases hcontent
      exact ⟨fresh, hfresh, ⟨halike.scope, halike.annotations, halike.data, halike.shapes⟩⟩
    · intro content' text hcontent hsome
      cases hcontent
      cases hsome
      exact hagree.symm

/-! ## Painting a page -/

section

variable {σ : Type} (device : Device σ) (base : Affine Float) {scope : Scope}

omit h

variable (options) in
/-- Painting a form that is not held remembers what reading the form remembers. -/
theorem painting_keeps_of_form (form : Form) (hstream : lib.HoldsStream roots form.stream) :
    Run.Keeps lib roots form.scopes ((HeldForm.ofForm form options).painting lib device base) := by
  have hread : Run.Keeps lib roots form.scopes (Content.interpretForm lib .shapes options form) :=
    (Content.interpretForm_agree hco (.refl form) rfl hstream).keeps
  exact (hread.bind fun _ => .pure _).bind fun _ => .pure _

/-- The appearance of an annotation is read with a scope of its own, which goes once it has been
painted. -/
theorem paintAppearance_keeps {a : Annotation}
    (ha : ∀ s, a.appearance = some s → lib.HoldsStream roots s) (s : σ) :
    Run.Keeps lib roots [scope] (paintAppearance lib options device base scope a s) := by
  intro F m hF hm
  unfold paintAppearance Annotation.readForm
  cases happearance : a.appearance with
  | none => exact hm
  | some stream =>
    obtain ⟨form, m₁, hread, hanonymous⟩ := Form.read_anonymous lib stream m
    have hstream : form.stream = stream := congrArg Form.stream hanonymous
    have hsome : (some <$> Form.read lib stream) m = (.ok (some form), m₁) := by
      rw [map_apply, hread]
      rfl
    dsimp only
    rw [bind_of_eq hsome]
    have hpainted := (painting_keeps_of_form options hco device base
      (form.usedIn [scope] (.underCtm (a.appearanceMatrix form)))
      (hstream ▸ ha stream happearance)).bind fun painting => .pure (painting.1 s)
    have hopened := hm.readForm (ha stream happearance) hread
    exact (hpainted _ m₁ (Form.scopes_subset hF) hopened).subset (List.subset_append_right _ _)

theorem paintAnnotations_keeps {annotations : List Annotation}
    (ha : ∀ a ∈ annotations, ∀ s, a.appearance = some s → lib.HoldsStream roots s) (s : σ) :
    Run.Keeps lib roots [scope]
      (paintAnnotations lib options device base scope annotations s) := by
  induction annotations generalizing s with
  | nil => exact .pure _
  | cons a rest ih =>
    obtain ⟨hfirst, hrest⟩ := List.forall_mem_cons.mp ha
    refine (paintAppearance_keeps hco device base hfirst s).bind fun r => ?_
    obtain ⟨e | ⟨⟩, s'⟩ := r
    · exact .pure _
    · exact ih hrest s'

variable (options) in
theorem paintLayers_keeps (hints : PaintHints) (view : View) (annotations : Bool) (leaf : Leaf)
    {content : PageContent}
    (ha : ∀ a ∈ content.annotations, ∀ s, a.appearance = some s → lib.HoldsStream roots s) (s : σ) :
    Run.Keeps lib roots [content.scope]
      (paintLayers lib options device hints view annotations leaf content s) := by
  unfold paintLayers
  dsimp only
  split
  · exact .pure _
  · split
    · exact paintAnnotations_keeps hco device _ (fun a h => ha a (List.mem_filter.mp h).1) _
    · exact .pure _

theorem paint_keeps (hints : PaintHints) (view : View) (annotations : Bool) (s : σ) :
    Keeps lib options roots (paint lib options device hints view annotations s) := by
  intro p p' F m m' r h hF hm hrun
  obtain ⟨⟨content, p₁⟩, m₁, hload, hrest⟩ := bind_eq_iff.mp hrun
  obtain ⟨⟨result, s'⟩, m₂, hpaint, hpure⟩ := bind_eq_iff.mp hrest
  cases hpure
  obtain ⟨rfl, hfaithful, hsound⟩ := load_spec hco h hF hm hload
  obtain ⟨fresh, hfresh, halike⟩ := hfaithful.content content rfl
  have hannotations : fresh.annotations = readAnnotations lib p.leaf := by
    unfold contentAfresh at hfresh
    exact read_annotations (Prod.ext hfresh rfl)
  have hkept := paintLayers_keeps options hco device hints view annotations p.leaf
    (fun a ha _ => h.held.appearance (hannotations ▸ halike.annotations ▸ ha)) (device.save s)
    (content.scope :: F) m₁ (List.cons_subset_cons _ (List.nil_subset F)) hsound
  rw [hpaint] at hkept
  exact ⟨rfl, hfaithful, hkept⟩

end

/-! ## Letting go of a page -/

omit hco in
/-- A page that has been let go of holds nothing. -/
theorem dispose_spec (keepDecoded : Bool) (hm : m.Sound lib roots F) :
    (dispose lib keepDecoded p m).1 = { p with content := none } ∧
      (dispose lib keepDecoded p m).1.Faithful lib options roots ∧
      (dispose lib keepDecoded p m).2.Sound lib roots
        ((dispose lib keepDecoded p m).1.scopes ++ F) := by
  have hheld := h.held
  obtain ⟨leaf, content⟩ := p
  cases content with
  | none => exact ⟨rfl, .ofLeaf hheld, hm⟩
  | some content =>
    cases keepDecoded with
    | true => exact ⟨rfl, .ofLeaf hheld, hm.forgetFonts _⟩
    | false => exact ⟨rfl, .ofLeaf hheld, (hm.evict _).forgetFonts _⟩

end Page

end PdfScene
