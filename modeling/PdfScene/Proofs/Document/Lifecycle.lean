import PdfScene.Proofs.Document.Opening
import PdfScene.Proofs.Object.Equality

/-!
# The life of a document

Pages are loaded when they are first needed, their content may be let go of, and what has been
decoded is shared by all of them and forgotten as room is needed. None of this can be seen from what
pages come to: `Document.after_eq`. A document is `Document.Faithful` if each of its pages is and its
memory is sound for the pages that are loaded; a call keeps that, and so do any number of calls.
-/

set_option autoImplicit false

namespace PdfScene

/-! ## Calls -/

namespace Document

/-- What a document may be asked to do. -/
inductive Call : Type 1 where
  /-- To prepare a page, or for its shapes, its images or its annotations, all of which load it. -/
  | load (i : Nat)
  | textBlocks (i : Nat)
  | paint {σ : Type} (i : Nat) (device : Device σ) (hints : PaintHints) (view : View)
      (annotations : Bool) (s : σ)
  | dispose (i : Nat) (keepDecoded : Bool)
  | loadUnlessCancelled (i : Nat) (cancelled : Bool)
  | reduceMemory (keep : List Nat)

/-- The document behind an answer, or the document as it is if there was no such page to ask. -/
def behind {α : Type} (doc : Document) (answer : Option (Except Panic (α × Document))) :
    Except Panic Document :=
  (answer.map (Except.map Prod.snd)).getD (.ok doc)

/-- The document after a call, unless it panics. A call that names no page of the document leaves it
as it is. -/
def Call.run (doc : Document) : Call → Except Panic Document
  | .load i => doc.behind (doc.load i)
  | .textBlocks i => doc.behind (doc.textBlocks i)
  | .paint i device hints view annotations s =>
    doc.behind (doc.paint i device hints view annotations s)
  | .dispose i keepDecoded => .ok (doc.dispose i keepDecoded)
  | .loadUnlessCancelled i cancelled =>
    match doc.loadUnlessCancelled i cancelled with
    | .ok (_, doc') => .ok doc'
    | .error (.panic p) => .error p
    | .error _ => .ok doc
  | .reduceMemory keep => .ok (doc.reduceMemory keep).2

/-- The document after some calls, none of which has panicked. -/
def after (doc : Document) (calls : List Call) : Except Panic Document := calls.foldlM Call.run doc

theorem after_cons_eq_ok {doc doc' : Document} {call : Call} {rest : List Call}
    (h : doc.after (call :: rest) = .ok doc') :
    ∃ next, call.run doc = .ok next ∧ next.after rest = .ok doc' := by
  unfold after at h ⊢
  rw [List.foldlM_cons] at h
  cases hcall : call.run doc with
  | error p =>
    rw [hcall] at h
    cases h
  | ok next =>
    rw [hcall] at h
    exact ⟨next, rfl, h⟩

/-- What is done to a page of a document is done to the page, from what the document remembers. -/
theorem onPage_eq_ok_iff {α : Type} {doc doc' : Document} {i : Nat} {f : Page → Run (α × Page)}
    {a : α} : doc.onPage i f = some (.ok (a, doc')) ↔
      ∃ p p' memory, doc.pages[i]? = some p ∧ f p doc.memory = (.ok (a, p'), memory) ∧
        doc' = { doc with memory }.setPage i p' := by
  unfold onPage Document.run
  constructor
  · intro h
    obtain ⟨p, hp, hrun⟩ := Option.map_eq_some_iff.mp h
    rcases hf : f p doc.memory with ⟨panic | ⟨b, p'⟩, memory⟩
    · rw [hf] at hrun
      cases hrun
    · rw [hf] at hrun
      cases hrun
      exact ⟨p, p', memory, hp, hf, rfl⟩
  · rintro ⟨p, p', memory, hp, hrun, rfl⟩
    rw [hp, Option.map_some, hrun]
    rfl

theorem onPage_answer {α β : Type} (doc : Document) (i : Nat) (f : Page → Run (α × Page)) (g : α → β) :
    (doc.onPage i f).map (Except.map fun r => g r.1) =
      doc.pages[i]?.map fun p => (f p doc.memory).1.map fun r => g r.1 := by
  unfold onPage
  rw [Option.map_map]
  refine congrArg (Option.map · doc.pages[i]?) (funext fun p => ?_)
  dsimp only [Function.comp, Document.run]
  rcases f p doc.memory with ⟨panic | ⟨a, p'⟩, memory⟩ <;> rfl

/-- What is asked of a page that is there comes of that page. -/
theorem behind_eq_ok {α : Type} {doc doc' : Document} {answer : Option (Except Panic (α × Document))}
    (h : doc.behind answer = .ok doc') :
    (answer = none ∧ doc' = doc) ∨ ∃ a, answer = some (.ok (a, doc')) := by
  rcases answer with _ | panic | ⟨a, doc''⟩
  · exact .inl ⟨rfl, (Except.ok.inj h).symm⟩
  · cases h
  · cases h
    exact .inr ⟨a, rfl⟩

theorem loadUnlessCancelled_run {doc doc' : Document} {i : Nat} {cancelled : Bool}
    (h : (Call.loadUnlessCancelled i cancelled).run doc = .ok doc') :
    doc' = doc ∨ doc.behind (doc.load i) = .ok doc' := by
  dsimp only [Call.run, loadUnlessCancelled] at h
  rcases hload : doc.load i with _ | panic | ⟨content, doc''⟩ <;> rw [hload] at h
  · cases h
    exact .inl rfl
  · cases cancelled <;> cases h
    exact .inl rfl
  · cases cancelled <;> cases h
    · exact .inr rfl
    · exact .inl rfl

/-- Letting go of a page puts it in its place and forgets what it forgets. -/
theorem dispose_eq {doc : Document} {i : Nat} {p : Page} (hp : doc.pages[i]? = some p)
    (keepDecoded : Bool) : doc.dispose i keepDecoded =
      { doc with memory := (p.dispose doc.lib keepDecoded doc.memory).2 }.setPage i
        (p.dispose doc.lib keepDecoded doc.memory).1 := by
  unfold dispose
  rw [hp]

theorem dispose_of_none {doc : Document} {i : Nat} (hp : doc.pages[i]? = none) (keepDecoded : Bool) :
    doc.dispose i keepDecoded = doc := by
  unfold dispose
  rw [hp]

/-! ## What calls keep -/

/-- What a call does to one page, other than letting go of it. -/
inductive Touches (lib : Library) (options : Options) :
    {α : Type} → (Page → Run (α × Page)) → Prop where
  | load : Touches lib options (Page.load lib options)
  | textBlocks : Touches lib options (Page.textBlocks lib options)
  | paint {σ : Type} (device : Device σ) (hints : PaintHints) (view : View) (annotations : Bool)
      (s : σ) : Touches lib options (Page.paint lib options device hints view annotations s)

section

variable {P : Document → Prop}
  (htouch : ∀ {α : Type} (doc doc' : Document) (i : Nat) (f : Page → Run (α × Page)),
    Touches doc.lib doc.options f → P doc → doc.behind (doc.onPage i f) = .ok doc' → P doc')
  (hdispose : ∀ (doc : Document) (i : Nat) (keepDecoded : Bool),
    P doc → P (doc.dispose i keepDecoded))
include htouch hdispose

/-- **What holds of a document holds after a call**, if whatever may be done to a page keeps it. -/
theorem call_invariant {doc doc' : Document} {call : Call} (h : P doc)
    (hrun : call.run doc = .ok doc') : P doc' := by
  cases call with
  | load i => exact htouch doc doc' i _ .load h hrun
  | textBlocks i => exact htouch doc doc' i _ .textBlocks h hrun
  | paint i device hints view annotations s =>
    exact htouch doc doc' i _ (.paint device hints view annotations s) h hrun
  | dispose i keepDecoded =>
    cases hrun
    exact hdispose doc i keepDecoded h
  | loadUnlessCancelled i cancelled =>
    rcases loadUnlessCancelled_run hrun with rfl | hload
    · exact h
    · exact htouch doc doc' i _ .load h hload
  | reduceMemory keep =>
    cases hrun
    unfold reduceMemory
    generalize List.range doc.pages.size = indices
    -- one page after the other, from any document of which it holds
    suffices hall : ∀ x : Nat × Document, P x.2 → P (indices.foldl _ x).2 from hall (0, doc) h
    induction indices with
    | nil => exact fun x hx => hx
    | cons i rest ih =>
      intro (count, doc') hx
      rw [List.foldl_cons]
      refine ih _ ?_
      dsimp only
      split
      · exact hx
      · exact hdispose doc' i false hx

theorem after_invariant {doc doc' : Document} {calls : List Call} (h : P doc)
    (hafter : doc.after calls = .ok doc') : P doc' := by
  induction calls generalizing doc with
  | nil =>
    cases hafter
    exact h
  | cons call rest ih =>
    obtain ⟨next, hcall, hrest⟩ := after_cons_eq_ok hafter
    exact ih (call_invariant htouch hdispose h hcall) hrest

end

/-! ## Faithful documents -/

/-- The scopes of the pages that are loaded. -/
def scopes (doc : Document) : Scopes := doc.pages.toList.flatMap Page.scopes

/-- A document whose pages hold what they would come to, with a memory that holds what is true. -/
structure Faithful (roots : List Dict) (doc : Document) : Prop where
  coherent : doc.lib.Coherent roots
  pages : ∀ p ∈ doc.pages, p.Faithful doc.lib doc.options roots
  memory : doc.memory.Sound doc.lib roots doc.scopes

/-- The same document, at another time. -/
structure Same (doc doc' : Document) : Prop where
  lib : doc'.lib = doc.lib
  options : doc'.options = doc.options
  leaves : doc'.pages.map Page.leaf = doc.pages.map Page.leaf

theorem Same.refl (doc : Document) : doc.Same doc := ⟨rfl, rfl, rfl⟩

theorem Same.trans {doc doc' doc'' : Document} (h : doc.Same doc') (h' : doc'.Same doc'') :
    doc.Same doc'' :=
  ⟨h'.lib.trans h.lib, h'.options.trans h.options, h'.leaves.trans h.leaves⟩

variable {roots : List Dict} {doc doc' : Document}

theorem scopes_subset {p : Page} (hp : p ∈ doc.pages) : p.scopes ⊆ doc.scopes := fun _ hs =>
  List.mem_flatMap.mpr ⟨p, Array.mem_toList_iff.mpr hp, hs⟩

theorem map_leaf_set {pages : Array Page} {i : Nat} {p p' : Page} (hp : pages[i]? = some p)
    (hleaf : p'.leaf = p.leaf) :
    (pages.setIfInBounds i p').map Page.leaf = pages.map Page.leaf := by
  rw [Array.map_setIfInBounds, hleaf]
  apply Array.ext_getElem?
  intro j
  rw [Array.getElem?_setIfInBounds]
  split
  · rename_i hij
    subst hij
    split
    · rw [Array.getElem?_map, hp]
      rfl
    · rename_i hsize
      rw [Array.getElem?_eq_none (Nat.le_of_not_lt hsize)]
  · rfl

/-- A page may be put in the place of what it has been. -/
theorem Faithful.setPage {i : Nat} {p p' : Page} {memory : Memory} (h : doc.Faithful roots)
    (hp : doc.pages[i]? = some p) (hleaf : p'.leaf = p.leaf)
    (hp' : p'.Faithful doc.lib doc.options roots)
    (hmemory : memory.Sound doc.lib roots (p'.scopes ++ doc.scopes)) :
    ({ doc with memory }.setPage i p').Faithful roots ∧
      doc.Same ({ doc with memory }.setPage i p') := by
  refine ⟨⟨h.coherent, ?_, hmemory.subset ?_⟩, ⟨rfl, rfl, map_leaf_set hp hleaf⟩⟩
  · intro q hq
    rcases Array.mem_or_eq_of_mem_setIfInBounds hq with hq | rfl
    · exact h.pages q hq
    · exact hp'
  · intro s hs
    obtain ⟨q, hq, hqs⟩ := List.mem_flatMap.mp hs
    rcases Array.mem_or_eq_of_mem_setIfInBounds (Array.mem_toList_iff.mp hq) with hq' | rfl
    · exact List.mem_append_right _
        (List.mem_flatMap.mpr ⟨q, Array.mem_toList_iff.mpr hq', hqs⟩)
    · exact List.mem_append_left _ hqs

/-- **What may be done with a page may be done with a page of a document**, and where there is no such
page nothing is done. -/
theorem Faithful.onPage {α : Type} {i : Nat} {f : Page → Run (α × Page)} (h : doc.Faithful roots)
    (hf : Page.Keeps doc.lib doc.options roots f) (hdoc' : doc.behind (doc.onPage i f) = .ok doc') :
    doc'.Faithful roots ∧ doc.Same doc' := by
  rcases behind_eq_ok hdoc' with ⟨-, rfl⟩ | ⟨a, hanswer⟩
  · exact ⟨h, .refl _⟩
  · obtain ⟨p, p', memory, hp, hrun, rfl⟩ := onPage_eq_ok_iff.mp hanswer
    have hmem : p ∈ doc.pages := Array.mem_of_getElem? hp
    obtain ⟨hleaf, hfaithful, hsound⟩ :=
      hf p p' doc.scopes doc.memory memory a (h.pages p hmem) (scopes_subset hmem) h.memory hrun
    exact h.setPage hp hleaf hfaithful hsound

theorem Faithful.dispose (h : doc.Faithful roots) (i : Nat) (keepDecoded : Bool) :
    (doc.dispose i keepDecoded).Faithful roots ∧ doc.Same (doc.dispose i keepDecoded) := by
  cases hp : doc.pages[i]? with
  | none =>
    rw [dispose_of_none hp]
    exact ⟨h, .refl doc⟩
  | some p =>
    have hmem : p ∈ doc.pages := Array.mem_of_getElem? hp
    obtain ⟨hpage, hfaithful, hsound⟩ :=
      Page.dispose_spec (h.pages p hmem) keepDecoded h.memory
    rw [dispose_eq hp]
    exact h.setPage hp (by rw [hpage]) hfaithful hsound

theorem Touches.keeps {lib : Library} {options : Options} {α : Type} {f : Page → Run (α × Page)}
    (h : Touches lib options f) (hco : lib.Coherent roots) : Page.Keeps lib options roots f := by
  cases h with
  | load => exact Page.load_keeps hco
  | textBlocks => exact Page.textBlocks_keeps hco
  | paint device hints view annotations s =>
    exact Page.paint_keeps hco device hints view annotations s

/-- **Any number of calls keep a document faithful.** -/
theorem Faithful.after {calls : List Call} (h : doc.Faithful roots)
    (hafter : doc.after calls = .ok doc') : doc'.Faithful roots ∧ doc.Same doc' := by
  refine after_invariant (P := fun doc' => doc'.Faithful roots ∧ doc.Same doc') ?_ ?_ ⟨h, .refl doc⟩
    hafter
  · intro α next doc' i f hf ⟨hnext, hsame⟩ hrun
    obtain ⟨hdoc', hsame'⟩ := hnext.onPage (hf.keeps hnext.coherent) hrun
    exact ⟨hdoc', hsame.trans hsame'⟩
  · intro next i keepDecoded ⟨hnext, hsame⟩
    obtain ⟨hdisposed, hsame'⟩ := hnext.dispose i keepDecoded
    exact ⟨hdisposed, hsame.trans hsame'⟩

/-! ## What pages come to -/

/-- The shapes of a page are those of the page read afresh. -/
theorem Faithful.shapes_eq (h : doc.Faithful roots) (i : Nat) :
    (doc.load i).map (Except.map fun r => r.1.shapes.anonymous) =
      ((doc.pages.map Page.leaf)[i]?).map fun leaf =>
        (Page.contentAfresh doc.lib doc.options leaf).map fun fresh => fresh.shapes.anonymous := by
  rw [Array.getElem?_map, Option.map_map]
  refine (doc.onPage_answer i (Page.load doc.lib doc.options) (·.shapes.anonymous)).trans ?_
  cases hp : doc.pages[i]? with
  | none => rfl
  | some p =>
    have hagree := Page.load_agree doc.options h.coherent
      (h.pages p (Array.mem_of_getElem? hp)) h.memory
    refine congrArg some ?_
    dsimp only [Function.comp]
    generalize (Page.load doc.lib doc.options p doc.memory).1 = x at hagree
    generalize Page.contentAfresh doc.lib doc.options p.leaf = y at hagree
    cases hagree with
    | ok halike => exact congrArg Except.ok halike.shapes
    | panic p => rfl

/-- The text of a page is that of the page read afresh. -/
theorem Faithful.text_eq (h : doc.Faithful roots) (i : Nat) :
    (doc.textBlocks i).map (Except.map Prod.fst) = ((doc.pages.map Page.leaf)[i]?).map
      (Page.textAfresh doc.lib doc.options) := by
  rw [Array.getElem?_map, Option.map_map]
  refine (doc.onPage_answer i (Page.textBlocks doc.lib doc.options) fun text => text).trans ?_
  cases hp : doc.pages[i]? with
  | none => rfl
  | some p =>
    have hmem : p ∈ doc.pages := Array.mem_of_getElem? hp
    exact congrArg some
      (Page.textBlocks_agree doc.options h.coherent (h.pages p hmem) (scopes_subset hmem) h.memory)

section

variable {file : Bytes} {options : Options} {capacity : Nat} {inflate : Inflater} {jpeg : JpegReader}
  {order : Dict.Order}

/-- **A document that has just been opened is faithful.** -/
theorem faithful_ofBytes (h : ofBytes file options capacity inflate jpeg order = .ok doc) :
    doc.Faithful [doc.lib.trailer] := by
  obtain ⟨lib, catalog, root, hfile, hlib, hcatalog, hroot, -, hmemory, hpages⟩ :=
    ofBytes_eq_ok_iff.mp h
  have hheld : doc.lib.Holds [doc.lib.trailer] root :=
    ((Library.HoldsDict.root List.mem_cons_self).dict hcatalog).entry hroot
  have hleaf : ∀ p ∈ doc.pages, ∃ leaf ∈ PageTree.leaves doc.lib root, Page.ofLeaf leaf = p := by
    intro p hp
    rw [hpages] at hp
    exact List.mem_map.mp (List.mem_toArray.mp hp)
  have hcoherent : doc.lib.Coherent [doc.lib.trailer] := by
    have hlabelled : lib.Labelled := Scan.file_labelled hfile
    rw [hlib]
    refine Library.Labelled.coherent (fun r o hfound => hlabelled r o hfound) fun d hd e he => ?_
    rw [List.mem_singleton.mp hd] at he
    exact .inl (Scan.file_trailer hfile e he)
  refine ⟨hcoherent, fun p hp => ?_, ?_⟩
  · obtain ⟨leaf, hmem, rfl⟩ := hleaf p hp
    exact .ofLeaf (PageTree.leaves_held hheld leaf hmem)
  · -- no page is loaded yet, so there is no scope to be sound for
    rw [hmemory]
    refine (Memory.Sound.initial capacity).subset fun s hs => ?_
    obtain ⟨p, hp, hs⟩ := List.mem_flatMap.mp hs
    obtain ⟨leaf, -, rfl⟩ := hleaf p (Array.mem_toList_iff.mp hp)
    exact absurd hs List.not_mem_nil

/-- **What pages come to does not depend on what has been done before**: after any calls, the shapes
of a page are those that a document which has just been opened gives, but for the numbers issued to
images that have none of their own, and its text is the same. A page that cannot be read without a
panic cannot be read at any other time. -/
theorem after_eq (h : ofBytes file options capacity inflate jpeg order = .ok doc) {calls : List Call}
    (hafter : doc.after calls = .ok doc') (i : Nat) :
    (doc'.load i).map (Except.map fun r => r.1.shapes.anonymous) =
        (doc.load i).map (Except.map fun r => r.1.shapes.anonymous) ∧
      (doc'.textBlocks i).map (Except.map Prod.fst) = (doc.textBlocks i).map (Except.map Prod.fst) := by
  have hopened := faithful_ofBytes h
  obtain ⟨hdoc', hsame⟩ := hopened.after hafter
  rw [hdoc'.shapes_eq, hopened.shapes_eq, hdoc'.text_eq, hopened.text_eq, hsame.lib,
    hsame.options, hsame.leaves]
  exact ⟨rfl, rfl⟩

end

end Document

/-! ## A page with a label -/

open Run

/-- A font whose texts are in a stream of their own. -/
def labelFont : Dict :=
  [("Type", .name "Font"), ("Subtype", .name "Type1"), ("BaseFont", .name "Helvetica"),
    ("ToUnicode", .ref ⟨6, 0⟩)]

/-- That stream. It gives no texts. -/
def labelTexts : StreamObj := ⟨[("Length", .num 0)], [], some ⟨6, 0⟩⟩

/-- The font is read once, and its texts are decoded for it. -/
theorem Scopes.font?_label {lib : Library} {s : Scope} {m : Memory}
    (hfonts : lib.dict? s.dict "Font" = some [("F", .ref ⟨5, 0⟩)])
    (hfont : lib.find? ⟨5, 0⟩ = some (.dict labelFont))
    (htexts : lib.find? ⟨6, 0⟩ = some labelTexts.toObj)
    (hunread : m.fonts.lookup (s.id, "F") = none)
    (hheld : ∀ d, m.cache.find? ⟨6, 0⟩ = some d → d = ⟨[], none⟩) :
    ∃ font, Scopes.font? lib "F" [s] m =
      (.ok (some font), (m.used ⟨6, 0⟩ ⟨[], none⟩).keepFont s.id "F" font) := by
  have hdict : ((s.entry? lib "Font" "F").bind fun o => (lib.resolve o).dict?) = some labelFont :=
    Scope.bind_entry?_ref hfonts rfl hfont rfl rfl
  have hstream : lib.stream? labelFont "ToUnicode" = some labelTexts := by
    rw [Library.stream?, Library.get?_ref htexts rfl rfl rfl]
    rfl
  obtain ⟨font, hread⟩ : ∃ font, Font.read lib "F" labelFont m =
      (.ok font, m.used ⟨6, 0⟩ ⟨[], none⟩) := by
    unfold Font.read
    rw [hstream]
    exact ⟨_, bind_of_eq (Memory.decode_of_ok rfl rfl hheld)⟩
  have hscope : Scope.font? lib "F" s m =
      (.ok (some font), (m.used ⟨6, 0⟩ ⟨[], none⟩).keepFont s.id "F" font) := by
    rw [Scope.font?_apply, hunread]
    dsimp only
    rw [hdict]
    exact bind_of_eq hread
  exact ⟨font, bind_of_eq hscope⟩

/-- What shows the letter a in that font. -/
def labelOperations : List Operation :=
  [⟨.beginText, []⟩, ⟨.setFont, [.name "F", .num 1]⟩, ⟨.showText, [.str (Bytes.ofAscii "a")]⟩,
    ⟨.endText, []⟩]

/-- They come to one shape, or to one text block. -/
theorem Machine.performAll_label {c : Context} {mem mem' : Memory} {font : Option Font}
    (hfont : c.scopes.font? c.lib "F" mem = (.ok font, mem')) :
    ∃ n : Machine, n.block = none ∧
      (c.mode = .shapes → c.recordText = true → n.scene.shapes.size = 1) ∧
      (c.mode = .text → n.scene.blocks.size = 1) ∧
      ∀ rest, (Machine.start .initial).performAll c (labelOperations ++ rest) mem =
        n.performAll c rest mem' := by
  have hset : ((Machine.start .initial).beginText c.mode).perform c
      ⟨.setFont, [.name "F", .num 1]⟩ mem = (.ok (.done _), mem') := bind_of_eq hfont
  obtain ⟨lib, mode, record, scopes, invoke⟩ := c
  refine ⟨_, ?_, ?_, ?_, fun rest => (performAll_of_done rfl).trans <|
    (performAll_of_done hset).trans <| (performAll_of_done rfl).trans (performAll_of_done rfl)⟩
  · cases mode <;> cases record <;> rfl
  · rintro rfl rfl
    rfl
  · rintro rfl
    rfl

/-! ## A page with a label, a form and an image -/

/-- A form that shows the letter b. -/
def captionForm : StreamObj :=
  ⟨[("Subtype", .name "Form"), ("Length", .num 12)], Bytes.ofAscii "BT (b) Tj ET", some ⟨7, 0⟩⟩

/-- An image of one gray pixel. -/
def dotStream : StreamObj :=
  ⟨[("Subtype", .name "Image"), ("Width", .num 1), ("Height", .num 1), ("Length", .num 1)],
    Bytes.ofAscii "0", some ⟨8, 0⟩⟩

def dotImage : Image :=
  { id := 8
    ref := some ⟨8, 0⟩
    width := (floatToInt 1).toNat
    height := (floatToInt 1).toNat
    bits := 8
    space := some .deviceGray
    stencil := false
    ranges := none
    interpolate := false
    stream := dotStream }

def picturedScope : Scope where
  id := 0
  dict := [("Font", .dict [("F", .ref ⟨5, 0⟩)]),
    ("XObject", .dict [("X", .ref ⟨7, 0⟩), ("I", .ref ⟨8, 0⟩)])]

def picturedContent : StreamObj :=
  ⟨[("Length", .num 32)], Bytes.ofAscii "BT /F 1 Tf (a) Tj ET /X Do /I Do", some ⟨4, 0⟩⟩

/-- The page. -/
def picturedEntries : Dict :=
  [("Contents", .ref ⟨4, 0⟩), ("Resources", .dict picturedScope.dict)]

/-- What the file of the page contains. -/
def picturedContents : Scan.Contents :=
  Document.singleContents picturedEntries
    [(⟨4, 0⟩, picturedContent.toObj), (⟨5, 0⟩, .dict labelFont), (⟨6, 0⟩, labelTexts.toObj),
      (⟨7, 0⟩, captionForm.toObj), (⟨8, 0⟩, dotStream.toObj)]

def picturedFile : Bytes :=
  Document.lines
    ["%PDF-1.7",
      "2 0 obj", "<</Type/Pages/Kids[3 0 R]>>", "endobj",
      "3 0 obj", "<</Type/Page/Contents 4 0 R",
      "/Resources<</Font<</F 5 0 R>>/XObject<</X 7 0 R/I 8 0 R>>>>>>", "endobj",
      "4 0 obj", "<</Length 32>>stream", "BT /F 1 Tf (a) Tj ET /X Do /I Do", "endstream", "endobj",
      "5 0 obj", "<</Type/Font/Subtype/Type1/BaseFont/Helvetica/ToUnicode 6 0 R>>", "endobj",
      "6 0 obj", "<</Length 0>>stream", "", "endstream", "endobj",
      "7 0 obj", "<</Subtype/Form/Length 12>>stream", "BT (b) Tj ET", "endstream", "endobj",
      "8 0 obj", "<</Subtype/Image/Width 1/Height 1/Length 1>>stream", "0", "endstream", "endobj",
      "trailer<</Root<</Pages 2 0 R>>>>"]

theorem picturedContents_of : picturedContents.Of picturedFile where
  plain := by decide +kernel
  trailers := by decide +kernel

theorem readAll_pictured : Operation.readAll picturedContent.data =
    labelOperations ++ [⟨.paintXObject, [.name "X"]⟩, ⟨.paintXObject, [.name "I"]⟩] := by
  decide +kernel

theorem readAll_caption : Operation.readAll captionForm.data =
    [⟨.beginText, []⟩, ⟨.showText, [.str (Bytes.ofAscii "b")]⟩, ⟨.endText, []⟩] := by
  decide +kernel

/-- The reading of the page's content. -/
def picturedReading : Content.Reading := .root .default [picturedScope] .initial picturedContent.data

/-- What is made of the page. -/
def picturedPage (shapes : Shapes) (text : Option (List TextBlock)) : PageContent :=
  ⟨picturedScope, [], picturedContent.data, [⟨4, 0⟩], shapes, text⟩

/-- What is remembered then: of the four streams, the two that were used last. -/
def picturedMemory (lib : Library) (font : Font) : Memory where
  nextId := lib.nextId
  nextScope := 1
  cache := ⟨2, [(⟨8, 0⟩, ⟨dotStream.data, none⟩), (⟨7, 0⟩, ⟨captionForm.data, none⟩)]⟩
  fonts := [((0, "F"), font)]

section

variable {lib : Library} (hlib : ∀ r, lib.find? r = picturedContents.plain.reverse.lookup r)
include hlib

/-- The form comes to one shape, or to one text block. -/
theorem perform_caption {mode : Mode} (m : Machine) (mem : Memory)
    (hheld : ∀ d, mem.cache.find? ⟨7, 0⟩ = some d → d = ⟨captionForm.data, none⟩) :
    ∃ scene : Scene, (mode = .shapes → scene.shapes.size = 1) ∧
      (mode = .text → scene.blocks.size = 1) ∧
      m.perform (picturedReading.context lib mode .default) ⟨.paintXObject, [.name "X"]⟩ mem =
        (.ok (.done (m.splice scene)), mem.used ⟨7, 0⟩ ⟨captionForm.data, none⟩) := by
  have hstream : picturedScope.formStream? lib "X" = some captionForm := by
    have hnamed : ((picturedScope.entry? lib "XObject" "X").bind fun o => (lib.resolve o).stream?) =
        some captionForm := Scope.bind_entry?_ref rfl rfl ((hlib ⟨7, 0⟩).trans rfl) rfl rfl
    rw [Scope.formStream?, hnamed]
    rfl
  have hform : picturedReading.scopes.xobject? lib "X" mem =
      (.ok (some (.form (Form.ofStream lib captionForm))), mem) :=
    bind_of_eq (Scope.xobject?_of_formStream hstream rfl)
  let form : Form := (Form.ofStream lib captionForm).usedIn [picturedScope] m.state
  have hdata : form.data lib mem =
      (.ok (.ok ⟨captionForm.data, none⟩), mem.used ⟨7, 0⟩ ⟨captionForm.data, none⟩) :=
    Memory.decode_of_ok rfl rfl hheld
  obtain ⟨child, henter, hchild⟩ : ∃ child, picturedReading.enter lib form mem =
      (.ok (some child), mem.used ⟨7, 0⟩ ⟨captionForm.data, none⟩) ∧ child.data = captionForm.data :=
    ⟨_, Content.Reading.enter_of_data rfl rfl hdata, rfl⟩
  have hrun : ∃ n : Machine, (mode = .shapes → n.scene.shapes.size = 1) ∧
      (mode = .text → n.scene.blocks.size = 1) ∧
      ∀ mem, child.run lib mode .default mem = (.ok (.ok n), mem) := by
    unfold Content.Reading.run
    rw [hchild, readAll_caption]
    refine ⟨_, ?_, ?_, fun mem => rfl⟩
    · rintro rfl
      rfl
    · rintro rfl
      rfl
  obtain ⟨n, hshapes, hblocks, hn⟩ := hrun
  refine ⟨n.scene, hshapes, hblocks, ?_⟩
  rw [Content.Reading.perform_form rfl rfl hform henter (congrArg Prod.fst (hn _)), hn]

theorem xobject?_dot (mem : Memory) :
    picturedReading.scopes.xobject? lib "I" mem = (.ok (some (.image dotImage)), mem) := by
  have hnamed : ((picturedScope.entry? lib "XObject" "I").bind fun o => (lib.resolve o).stream?) =
      some dotStream := Scope.bind_entry?_ref rfl rfl ((hlib ⟨8, 0⟩).trans rfl) rfl rfl
  have hsize : Image.checkSize (floatToInt 1) (floatToInt 1) = .ok () := by decide +kernel
  have hread (named : String → Run (Option ColorSpace)) :
      Image.read lib dotStream named mem = (.ok (.ok dotImage), mem) := by
    unfold Image.read
    rw [show (lib.int? dotStream.dict "Width").getD 0 = floatToInt 1 from rfl,
      show (lib.int? dotStream.dict "Height").getD 0 = floatToInt 1 from rfl, hsize]
    rfl
  have hscope : picturedScope.xobject? lib "I" mem = (.ok (some (.image dotImage)), mem) := by
    unfold Scope.xobject?
    rw [hnamed]
    exact bind_of_eq (hread _)
  exact bind_of_eq hscope

omit hlib in
theorem pixels?_dot (jpeg : JpegReader) :
    ∃ pixels, dotImage.pixels? ⟨dotStream.data, none⟩ jpeg = .ok pixels := by
  have hsome : (dotImage.decodeSamples dotStream.data).toOption.isSome = true := by decide +kernel
  change ∃ pixels, (dotImage.decodeSamples dotStream.data).map some = .ok pixels
  cases hpixels : dotImage.decodeSamples dotStream.data with
  | ok pixels => exact ⟨some pixels, rfl⟩
  | error e =>
    rw [hpixels] at hsome
    cases hsome

/-- The page is read for three shapes. -/
theorem load_pictured : ∃ (shapes : Shapes) (font : Font), shapes.size = 3 ∧
    Page.load lib .default (.ofLeaf (Document.singleLeaf picturedEntries)) (.initial lib 2) =
      (.ok (picturedPage shapes none, ⟨Document.singleLeaf picturedEntries,
        some (picturedPage shapes none)⟩), picturedMemory lib font) := by
  let start : Memory := ⟨lib.nextId, 1, .empty 2, []⟩
  let opened := start.used ⟨4, 0⟩ ⟨picturedContent.data, none⟩
  obtain ⟨font, hfont⟩ := Scopes.font?_label (s := picturedScope) (m := opened) rfl
    ((hlib ⟨5, 0⟩).trans rfl) ((hlib ⟨6, 0⟩).trans rfl) rfl (by rintro _ ⟨⟩)
  let labelled := (opened.used ⟨6, 0⟩ ⟨[], none⟩).keepFont 0 "F" font
  let captioned := labelled.used ⟨7, 0⟩ ⟨captionForm.data, none⟩
  obtain ⟨m₁, hblock, hlabel, -, hm₁⟩ := Machine.performAll_label
    (c := picturedReading.context lib .shapes .default) hfont
  obtain ⟨scene, hcaption, -, hm₂⟩ := perform_caption hlib m₁ labelled (by rintro _ ⟨⟩)
  obtain ⟨pixels, hpixels⟩ := pixels?_dot lib.jpeg
  have hdot : Memory.decode lib.inflate dotStream captioned = _ :=
    Memory.decode_of_ok rfl rfl (by rintro _ ⟨⟩)
  have hm₃ := Machine.perform_image (m := m₁.splice scene) (o := ⟨.paintXObject, [.name "I"]⟩)
    (c := picturedReading.context lib .shapes .default) rfl rfl rfl (xobject?_dot hlib captioned)
    hdot hpixels
  have hscene := Content.interpret_of_performAll (readAll_pictured ▸ ((hm₁ _).trans <|
    (Machine.performAll_of_done hm₂).trans <| Machine.performAll_of_done hm₃))
  have hcontent : Memory.decode lib.inflate picturedContent start = (.ok (.ok _), opened) :=
    Memory.decode_of_ok rfl rfl (by rintro _ ⟨⟩)
  have hread := Page.read_single (Document.singleLeaf picturedEntries)
    (m := Memory.initial lib 2) rfl ((hlib ⟨4, 0⟩).trans rfl) hcontent hscene
  refine ⟨_, font, ?_, bind_of_eq hread⟩
  have hshapes : (m₁.splice scene).scene.shapes.size = 2 := by
    rw [Machine.splice, hblock, Array.size_append, hlabel rfl rfl, hcaption rfl]
  exact (Array.size_push _).trans (congrArg (· + 1) hshapes)

/-- Its text is read with the font that is held, and the form is the one used last then. -/
theorem readText_pictured (shapes : Shapes) (font : Font) (p : Page) :
    ∃ text, text.length = 2 ∧
      Page.readText lib .default (picturedPage shapes none) p (picturedMemory lib font) =
        (.ok (text, { p with content := some (picturedPage shapes (some text)) }),
          (picturedMemory lib font).used ⟨7, 0⟩ ⟨captionForm.data, none⟩) := by
  let held := picturedMemory lib font
  have hfont : Scopes.font? lib "F" [picturedScope] held = (.ok (some font), held) :=
    bind_of_eq (Scope.font?_apply lib "F" picturedScope held)
  obtain ⟨m₁, hblock, -, hlabel, hm₁⟩ := Machine.performAll_label
    (c := picturedReading.context lib .text .default) hfont
  obtain ⟨scene, -, hcaption, hm₂⟩ := perform_caption hlib m₁ held (by rintro _ ⟨⟩; rfl)
  have hm₃ : (m₁.splice scene).perform (picturedReading.context lib .text .default)
      ⟨.paintXObject, [.name "I"]⟩ (held.used ⟨7, 0⟩ ⟨captionForm.data, none⟩) =
        (.ok (.done (m₁.splice scene)), held.used ⟨7, 0⟩ ⟨captionForm.data, none⟩) :=
    bind_of_eq (xobject?_dot hlib _)
  have hscene := Content.interpret_of_performAll (readAll_pictured ▸ ((hm₁ _).trans <|
    (Machine.performAll_of_done hm₂).trans <| Machine.performAll_of_done hm₃))
  refine ⟨(m₁.splice scene).scene.blocks.toList, ?_, bind_of_eq hscene⟩
  rw [Machine.splice, hblock, Array.length_toList, Array.size_append, hlabel rfl, hcaption rfl]

end

namespace Document

/-- Two streams are held at a time, so the page's content and the texts of its font are forgotten while
it is loaded. All else is forgotten when it is let go of, and then it is read again for the same shapes
and the same text. -/
theorem after_eq_pictured : ∃ doc loaded told doc' content text,
    ofBytes picturedFile .default 2 = .ok doc ∧
    doc.load 0 = some (.ok (content, loaded)) ∧ content.shapes.size = 3 ∧
    loaded.memory.cache.entries.map Prod.fst = [⟨8, 0⟩, ⟨7, 0⟩] ∧
    doc.textBlocks 0 = some (.ok (text, told)) ∧ text.length = 2 ∧
    told.memory.cache.entries.map Prod.fst = [⟨7, 0⟩, ⟨8, 0⟩] ∧ told.memory.fonts.length = 1 ∧
    doc.after [.textBlocks 0, .dispose 0 false] = .ok doc' ∧
    doc'.memory.cache.entries = [] ∧ doc'.memory.fonts = [] ∧
    (doc'.load 0).map (Except.map fun r => r.1.shapes.anonymous) =
      some (.ok content.shapes.anonymous) ∧
    (doc'.textBlocks 0).map (Except.map Prod.fst) = some (.ok text) := by
  obtain ⟨lib, hdoc, hlib⟩ := ofBytes_single 2 picturedContents_of rfl rfl rfl rfl
  obtain ⟨shapes, font, hsize, hload⟩ := load_pictured hlib
  let leaf := singleLeaf picturedEntries
  let loaded : Page := ⟨leaf, some (picturedPage shapes none)⟩
  obtain ⟨text, hlength, hread⟩ := readText_pictured hlib shapes font loaded
  let told : Page := ⟨leaf, some (picturedPage shapes (some text))⟩
  have htextBlocks : Page.textBlocks lib .default (.ofLeaf leaf) (.initial lib 2) =
      (.ok (text, told), (picturedMemory lib font).used ⟨7, 0⟩ ⟨captionForm.data, none⟩) := by
    rw [Page.textBlocks_eq, bind_of_eq hload]
    exact hread
  let doc : Document := ⟨lib, .default, .initial lib 2, #[.ofLeaf leaf]⟩
  have hloaded : doc.load 0 =
      some (.ok (_, ⟨lib, .default, picturedMemory lib font, #[loaded]⟩)) :=
    onPage_eq_ok_iff.mpr ⟨_, _, _, rfl, hload, rfl⟩
  let tellable : Document :=
    ⟨lib, .default, (picturedMemory lib font).used ⟨7, 0⟩ ⟨captionForm.data, none⟩, #[told]⟩
  have htold : doc.textBlocks 0 = some (.ok (text, tellable)) :=
    onPage_eq_ok_iff.mpr ⟨_, _, _, rfl, htextBlocks, rfl⟩
  have hcall : (Call.textBlocks 0).run doc = .ok tellable := congrArg doc.behind htold
  have hafter : doc.after [.textBlocks 0, .dispose 0 false] = .ok (tellable.dispose 0 false) := by
    rw [after, List.foldlM_cons, hcall]
    rfl
  obtain ⟨hshapes, htext⟩ := after_eq hdoc hafter 0
  refine ⟨doc, _, _, _, _, text, hdoc, hloaded, hsize, rfl, htold, hlength, rfl, rfl, hafter, rfl, rfl,
    ?_, ?_⟩
  · rw [hshapes, hloaded]
    rfl
  · rw [htext, htold]
    rfl

end Document

end PdfScene
