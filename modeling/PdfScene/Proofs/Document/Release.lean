import PdfScene.Proofs.Document.Lifecycle

/-!
# Letting go of decoded data

Letting go of a page also makes the memory forget decoded streams, and which ones is fixed by the page
as it stands in the file: `Leaf.releasedRefs`. They are the streams of its content, what its own
resources name as external objects, patterns and shadings, and the appearances of its annotations.
Exactly these go, whatever has been done with the document before (`Document.find?_dispose_after`).
What has been decoded on the way to something else stays: texts of fonts, tables of colours, what the
resources of a form name, and streams behind a reference to a reference.
-/

set_option autoImplicit false

namespace PdfScene

open Run

/-! ## What a page lets go of -/

/-- The references of the streams among some entries, up to the first one that cannot be decoded. -/
def Page.decodedRefs (lib : Library) : List Obj → List ObjRef
  | [] => []
  | o :: rest =>
    match (lib.resolve o).stream? with
    | none => decodedRefs lib rest
    | some s =>
      s.ref.toList ++
        match s.decode lib.inflate with
        | .ok _ => decodedRefs lib rest
        | .error _ => []

/-- The references of the streams whose decoded data goes with a page. -/
def Leaf.releasedRefs (lib : Library) (leaf : Leaf) : List ObjRef :=
  Page.decodedRefs lib (Page.contentEntries lib leaf) ++
    Scope.streamRefs lib ⟨0, leaf.resources lib⟩ ++
    (Page.readAnnotations lib leaf).filterMap fun a => a.appearance.bind (·.ref)

namespace Page

variable {lib : Library} {options : Options} {roots : List Dict}

/-- The references that reading the content of a page comes to do not depend on what is remembered. -/
theorem readEntries_refs {F : Scopes} (hco : lib.Coherent roots) {entries : List Obj}
    (hentries : ∀ o ∈ entries, lib.Holds roots o) {first : Bool} {data : Array UInt8}
    {refs : List ObjRef} {m m' : Memory} (hm : m.Sound lib roots F) {found : Option Bytes × List ObjRef}
    (h : readEntries lib first data refs entries m = (.ok found, m')) :
    found.2 = refs.reverse ++ decodedRefs lib entries := by
  induction entries generalizing first data refs m with
  | nil =>
    cases h
    exact (List.append_nil _).symm
  | cons o rest ih =>
    obtain ⟨ho, hrest⟩ := List.forall_mem_cons.mp hentries
    unfold readEntries at h
    unfold decodedRefs
    cases hs : (lib.resolve o).stream? with
    | none =>
      rw [hs] at h
      exact ih hrest hm h
    | some s =>
      rw [hs] at h
      obtain ⟨answer, m₁, hdecode, h⟩ := bind_eq_iff.mp h
      obtain ⟨hanswer, hsound⟩ := hm.decode hco (ho.resolve.stream hs)
      rw [hdecode] at hanswer hsound
      have hrefs : (s.ref.toList ++ refs).reverse = refs.reverse ++ s.ref.toList := by
        cases s.ref <;> simp
      dsimp only
      rw [(Panic.apart_eq_ok_iff.mp hanswer.symm).1]
      cases answer with
      | error e =>
        cases h
        rw [hrefs, List.append_nil]
      | ok decoded => rw [ih hrest hsound h, hrefs, List.append_assoc]

/-- **What a page lets go of is known from the leaf that it is.** -/
theorem streamRefs_read {F : Scopes} (hco : lib.Coherent roots) {leaf : Leaf} {m m' : Memory}
    {content : PageContent} (hleaf : leaf.Held lib roots) (hm : m.Sound lib roots F)
    (h : read lib options leaf m = (.ok content, m')) :
    streamRefs lib content = leaf.releasedRefs lib := by
  have hannotations := read_annotations h
  have hread : content.scope.dict = leaf.resources lib ∧
      content.refs = decodedRefs lib (contentEntries lib leaf) := by
    have hm' := hm.create hleaf.resources
    rw [read_eq, bind_of_eq (Scope.create_apply _ m)] at h
    rw [Scope.create_apply] at hm'
    obtain ⟨⟨data, refs⟩, m₁, hentries, h⟩ := bind_eq_iff.mp h
    have hrefs := readEntries_refs hco hleaf.contentEntries hm' hentries
    cases data with
    | none =>
      cases h
      exact ⟨rfl, hrefs⟩
    | some data =>
      obtain ⟨result, m₂, -, h⟩ := bind_eq_iff.mp h
      cases result <;> cases h <;> exact ⟨rfl, hrefs⟩
  unfold streamRefs Leaf.releasedRefs Scope.streamRefs
  rw [hread.1, hread.2, hannotations]

variable (lib) in
/-- A page that, if it is loaded, lets go of what is known from its leaf. -/
def Known (p : Page) : Prop :=
  ∀ content, p.content = some content → streamRefs lib content = p.leaf.releasedRefs lib

/-- A page that is loaded is one that is known. -/
theorem load_known {F : Scopes} (hco : lib.Coherent roots) {p p' : Page} {m m' : Memory}
    {content : PageContent} (hleaf : p.leaf.Held lib roots) (hm : m.Sound lib roots F)
    (hp : p.Known lib) (h : load lib options p m = (.ok (content, p'), m')) :
    p'.Known lib ∧ streamRefs lib content = p'.leaf.releasedRefs lib := by
  obtain ⟨leaf, held⟩ := p
  cases held with
  | some held =>
    cases h
    exact ⟨hp, hp _ rfl⟩
  | none =>
    obtain ⟨_, _, hread, hpure⟩ := bind_eq_iff.mp h
    cases hpure
    have hrefs := streamRefs_read hco hleaf hm hread
    refine ⟨fun content' hcontent => ?_, hrefs⟩
    cases hcontent
    exact hrefs

end Page

/-! ## One page after the other -/

namespace Document

variable {roots : List Dict} {lib : Library} {options : Options}

/-- Loading is the one way for a page to come to hold something. -/
theorem Touches.known {α : Type} {f : Page → Run (α × Page)} (h : Touches lib options f)
    (hco : lib.Coherent roots) {p p' : Page} {F : Scopes} {m m' : Memory} {a : α}
    (hleaf : p.leaf.Held lib roots) (hm : m.Sound lib roots F) (hp : p.Known lib)
    (hrun : f p m = (.ok (a, p'), m')) : p'.Known lib := by
  cases h with
  | load => exact (Page.load_known hco hleaf hm hp hrun).1
  | textBlocks =>
    rw [Page.textBlocks_eq] at hrun
    obtain ⟨⟨content, p₁⟩, m₁, hload, hread⟩ := bind_eq_iff.mp hrun
    obtain ⟨hknown, hrefs⟩ := Page.load_known hco hleaf hm hp hload
    dsimp only [Page.readText] at hread
    cases htext : content.text with
    | some text =>
      rw [htext] at hread
      cases hread
      exact hknown
    | none =>
      rw [htext] at hread
      obtain ⟨result, m₂, -, hpure⟩ := bind_eq_iff.mp hread
      cases hpure
      intro content' hcontent
      cases hcontent
      exact hrefs
  | paint device hints view annotations s =>
    obtain ⟨⟨content, p₁⟩, m₁, hload, hrest⟩ := bind_eq_iff.mp hrun
    obtain ⟨⟨result, s'⟩, m₂, -, hpure⟩ := bind_eq_iff.mp hrest
    cases hpure
    exact (Page.load_known hco hleaf hm hp hload).1

/-- No page of a document is loaded when it is opened. -/
theorem unloaded_ofBytes {file : Bytes} {capacity : Nat} {inflate : Inflater} {jpeg : JpegReader}
    {order : Dict.Order} {doc : Document}
    (h : ofBytes file options capacity inflate jpeg order = .ok doc) :
    ∀ p ∈ doc.pages, p.content = none := by
  obtain ⟨_, _, _, -, -, -, -, -, -, hpages⟩ := ofBytes_eq_ok_iff.mp h
  intro p hp
  rw [hpages] at hp
  obtain ⟨leaf, -, rfl⟩ := List.mem_map.mp (List.mem_toArray.mp hp)
  rfl

/-- A faithful document each of whose pages lets go of what is known from its leaf. -/
structure Knows (roots : List Dict) (start doc : Document) : Prop where
  faithful : doc.Faithful roots
  same : start.Same doc
  known : ∀ p ∈ doc.pages, p.Known doc.lib

/-- **Whatever is done to a page, it lets go of what is known from its leaf.** -/
theorem Knows.touch {start doc doc' : Document} (h : Knows roots start doc) {α : Type} {i : Nat}
    {f : Page → Run (α × Page)} (hf : Touches doc.lib doc.options f)
    (hrun : doc.behind (doc.onPage i f) = .ok doc') : Knows roots start doc' := by
  obtain ⟨hfaithful, hsame⟩ := h.faithful.onPage (hf.keeps h.faithful.coherent) hrun
  refine ⟨hfaithful, h.same.trans hsame, ?_⟩
  rcases behind_eq_ok hrun with ⟨-, rfl⟩ | ⟨a, hanswer⟩
  · exact h.known
  · obtain ⟨p, p', memory, hp, hp', rfl⟩ := onPage_eq_ok_iff.mp hanswer
    have hmem : p ∈ doc.pages := Array.mem_of_getElem? hp
    have hknown := hf.known h.faithful.coherent (h.faithful.pages p hmem).held h.faithful.memory
      (h.known p hmem) hp'
    intro q hq
    rcases Array.mem_or_eq_of_mem_setIfInBounds hq with hq | rfl
    · exact h.known q hq
    · exact hknown

/-- A page that has been let go of lets go of nothing more. -/
theorem Knows.dispose {start doc : Document} (h : Knows roots start doc) (i : Nat)
    (keepDecoded : Bool) : Knows roots start (doc.dispose i keepDecoded) := by
  obtain ⟨hfaithful, hsame⟩ := h.faithful.dispose i keepDecoded
  refine ⟨hfaithful, h.same.trans hsame, ?_⟩
  cases hp : doc.pages[i]? with
  | none =>
    rw [dispose_of_none hp]
    exact h.known
  | some p =>
    have hmem : p ∈ doc.pages := Array.mem_of_getElem? hp
    obtain ⟨hpage, -⟩ := Page.dispose_spec (h.faithful.pages p hmem) keepDecoded h.faithful.memory
    rw [dispose_eq hp, hpage]
    intro q hq
    rcases Array.mem_or_eq_of_mem_setIfInBounds hq with hq | rfl
    · exact h.known q hq
    · exact fun content hcontent => absurd hcontent nofun

/-- What is forgotten with a page is what the page uses, if it is loaded. -/
theorem find?_dispose {doc : Document} {i : Nat} {p : Page} (hp : doc.pages[i]? = some p)
    (r : ObjRef) : (doc.dispose i false).memory.cache.find? r =
      if r ∈ (p.content.map (Page.streamRefs doc.lib)).getD [] then none
      else doc.memory.cache.find? r := by
  rw [dispose_eq hp]
  obtain ⟨leaf, content⟩ := p
  cases content with
  | none => rfl
  | some content => exact DecodeCache.find?_foldl_erase _ _ r

/-- **What is forgotten with a page is fixed by the file.** Whatever has been done with a document
that has been opened, letting go of a page and its decoded data makes the memory forget the streams
in `Leaf.releasedRefs` if the page is loaded, and no others. -/
theorem find?_dispose_after {file : Bytes} {capacity : Nat} {inflate : Inflater} {jpeg : JpegReader}
    {order : Dict.Order} {doc doc' : Document}
    (h : ofBytes file options capacity inflate jpeg order = .ok doc) {calls : List Call}
    (hafter : doc.after calls = .ok doc') {i : Nat} {p : Page} (hp : doc'.pages[i]? = some p)
    (r : ObjRef) :
    (doc'.dispose i false).memory.cache.find? r =
      if p.isLoaded ∧ r ∈ p.leaf.releasedRefs doc.lib then none else doc'.memory.cache.find? r := by
  have hopened : Knows [doc.lib.trailer] doc doc := by
    refine ⟨faithful_ofBytes h, .refl doc, fun p hp content hcontent => ?_⟩
    rw [unloaded_ofBytes h p hp] at hcontent
    cases hcontent
  have hdoc' : Knows [doc.lib.trailer] doc doc' :=
    after_invariant (fun _ _ _ _ hf hdoc hrun => hdoc.touch hf hrun)
      (fun _ i keepDecoded hdoc => hdoc.dispose i keepDecoded) hopened hafter
  rw [find?_dispose hp]
  cases hcontent : p.content with
  | none => simp [Page.isLoaded, hcontent]
  | some content =>
    have hrefs := hdoc'.known p (Array.mem_of_getElem? hp) content hcontent
    rw [hdoc'.same.lib] at hrefs ⊢
    simp [Page.isLoaded, hcontent, hrefs]

/-! ## A page with a label -/

def labelledContent : StreamObj :=
  ⟨[("Length", .num 20)], Bytes.ofAscii "BT /F 1 Tf (a) Tj ET", some ⟨4, 0⟩⟩

/-- The page. -/
def labelledEntries : Dict :=
  [("Contents", .ref ⟨4, 0⟩), ("Resources", .dict [("Font", .dict [("F", .ref ⟨5, 0⟩)])])]

/-- What the file of the page contains. -/
def labelledContents : Scan.Contents :=
  singleContents labelledEntries
    [(⟨4, 0⟩, labelledContent.toObj), (⟨5, 0⟩, .dict labelFont), (⟨6, 0⟩, labelTexts.toObj)]

def labelledFile : Bytes :=
  lines
    ["%PDF-1.7",
      "2 0 obj", "<</Type/Pages/Kids[3 0 R]>>", "endobj",
      "3 0 obj", "<</Type/Page/Contents 4 0 R/Resources<</Font<</F 5 0 R>>>>>>", "endobj",
      "4 0 obj", "<</Length 20>>stream", "BT /F 1 Tf (a) Tj ET", "endstream", "endobj",
      "5 0 obj", "<</Type/Font/Subtype/Type1/BaseFont/Helvetica/ToUnicode 6 0 R>>", "endobj",
      "6 0 obj", "<</Length 0>>stream", "", "endstream", "endobj",
      "trailer<</Root<</Pages 2 0 R>>>>"]

theorem labelledContents_of : labelledContents.Of labelledFile where
  plain := by decide +kernel
  trailers := by decide +kernel

theorem readAll_labelled : Operation.readAll labelledContent.data = labelOperations := by
  decide +kernel

section

variable {lib : Library} (hlib : ∀ r, lib.find? r = labelledContents.plain.reverse.lookup r)
include hlib

/-- Loading the page decodes its content and the texts of its font. -/
theorem load_labelled : ∃ content memory,
    Page.load lib .default (.ofLeaf (singleLeaf labelledEntries)) (.initial lib defaultCapacity) =
      (.ok (content, ⟨singleLeaf labelledEntries, some content⟩), memory) ∧
    memory.cache.entries = [(⟨6, 0⟩, ⟨[], none⟩), (⟨4, 0⟩, ⟨labelledContent.data, none⟩)] := by
  let scope : Scope := ⟨0, [("Font", .dict [("F", .ref ⟨5, 0⟩)])]⟩
  let start : Memory := ⟨lib.nextId, 1, .empty defaultCapacity, []⟩
  let opened := start.used ⟨4, 0⟩ ⟨labelledContent.data, none⟩
  have hcontent : Memory.decode lib.inflate labelledContent start = (.ok (.ok _), opened) :=
    Memory.decode_of_ok rfl rfl (by rintro _ ⟨⟩)
  obtain ⟨font, hfont⟩ := Scopes.font?_label (s := scope) (m := opened) rfl
    ((hlib ⟨5, 0⟩).trans rfl) ((hlib ⟨6, 0⟩).trans rfl) rfl (by rintro _ ⟨⟩)
  let reading := Content.Reading.root .default [scope] .initial labelledContent.data
  obtain ⟨n, -, -, -, hn⟩ := Machine.performAll_label
    (c := reading.context lib .shapes .default) hfont
  have hrun := hn []
  rw [List.append_nil, ← readAll_labelled] at hrun
  have hscene := Content.interpret_of_performAll hrun
  have hread := Page.read_single (singleLeaf labelledEntries)
    (m := Memory.initial lib defaultCapacity) rfl ((hlib ⟨4, 0⟩).trans rfl) hcontent hscene
  exact ⟨_, _, Run.bind_of_eq hread, rfl⟩

theorem releasedRefs_labelled : (singleLeaf labelledEntries).releasedRefs lib = [⟨4, 0⟩] := by
  have hresolve : lib.resolve (.ref ⟨4, 0⟩) = labelledContent.toObj :=
    Library.resolve_ref ((hlib ⟨4, 0⟩).trans rfl) rfl
  have hentries : Page.contentEntries lib (singleLeaf labelledEntries) = [.ref ⟨4, 0⟩] := by
    change ((lib.resolve (.ref ⟨4, 0⟩)).array?).getD [.ref ⟨4, 0⟩] = _
    rw [hresolve]
    rfl
  have hdecoded : Page.decodedRefs lib [.ref ⟨4, 0⟩] = [⟨4, 0⟩] := by
    unfold Page.decodedRefs
    rw [hresolve]
    rfl
  rw [Leaf.releasedRefs, hentries, hdecoded]
  rfl

end

/-- The texts of the font stay when the page and its decoded data are let go of. -/
theorem find?_dispose_after_labelled : ∃ doc doc' p,
    ofBytes labelledFile .default defaultCapacity = .ok doc ∧ doc.after [.load 0] = .ok doc' ∧
    doc'.pages[0]? = some p ∧ p.isLoaded ∧
    doc'.memory.cache.entries.map Prod.fst = [⟨6, 0⟩, ⟨4, 0⟩] ∧
    p.leaf.releasedRefs doc.lib = [⟨4, 0⟩] ∧
    (doc'.dispose 0 false).memory.cache.find? ⟨4, 0⟩ = none ∧
    (doc'.dispose 0 false).memory.cache.find? ⟨6, 0⟩ = some ⟨[], none⟩ := by
  obtain ⟨lib, hdoc, hlib⟩ := ofBytes_single defaultCapacity labelledContents_of rfl rfl rfl rfl
  obtain ⟨content, memory, hload, hentries⟩ := load_labelled hlib
  let leaf := singleLeaf labelledEntries
  let doc : Document := ⟨lib, .default, .initial lib defaultCapacity, #[.ofLeaf leaf]⟩
  let doc' : Document := ⟨lib, .default, memory, #[⟨leaf, some content⟩]⟩
  have hloaded : doc.load 0 = some (.ok (content, doc')) :=
    onPage_eq_ok_iff.mpr ⟨_, _, _, rfl, hload, rfl⟩
  have hcall : (Call.load 0).run doc = .ok doc' := congrArg doc.behind hloaded
  have hafter : doc.after [.load 0] = .ok doc' := by
    rw [after, List.foldlM_cons, hcall]
    rfl
  have hreleased : leaf.releasedRefs lib = [⟨4, 0⟩] := releasedRefs_labelled hlib
  have hpage : doc'.pages[0]? = some ⟨leaf, some content⟩ := rfl
  have hfind := find?_dispose_after hdoc hafter hpage
  refine ⟨doc, doc', _, hdoc, hafter, hpage, rfl, by rw [hentries]; rfl, hreleased, ?_, ?_⟩
  · rw [hfind, if_pos ⟨rfl, by rw [hreleased]; decide⟩]
  · rw [hfind, if_neg (fun h => by rw [hreleased] at h; exact absurd h.2 (by decide)),
      DecodeCache.find?, hentries]
    rfl

end Document

end PdfScene
