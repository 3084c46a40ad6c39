import PdfScene.Document.Basic
import PdfScene.Proofs.Document.Circles
import PdfScene.Proofs.Document.Pages
import PdfScene.Proofs.Store.Contents

/-!
# Opening a document

A document that has just been opened is the library of its file, and the leaves of its page tree with
nothing done to them: `Document.ofBytes_eq_ok_iff`. What those pages name comes up in the library
(`PageTree.leaves_held`), so reading them later reads nothing else.

The smallest file that has something to load has one page, whose content is one stream.
`Document.ofBytes_single` is what comes of opening it, and `Page.read_single` of reading its page.
-/

set_option autoImplicit false

namespace PdfScene

open Run

/-! ## The pages of a document come up -/

namespace PageTree

variable {lib : Library} {roots : List Dict}

/-- What visits to held nodes find is held. -/
theorem Visits.held {ancestors : List Dict} {os : List Obj} {entered after : List ObjRef}
    {found : List Found} (h : Visits lib ancestors os entered after found)
    (hancestors : ∀ d ∈ ancestors, lib.HoldsDict roots d) (hos : ∀ o ∈ os, lib.Holds roots o) :
    ∀ page ∈ found, ∀ i, (page.leaf i).Held lib roots := by
  induction h with
  | nil => exact fun _ hpage => absurd hpage List.not_mem_nil
  | again _ _ _ ih => exact ih hancestors (List.forall_mem_cons.mp hos).2
  | page _ hnode _ ih =>
    obtain ⟨ho, hos⟩ := List.forall_mem_cons.mp hos
    refine List.forall_mem_cons.mpr ⟨fun _ => ?_, ih hancestors hos⟩
    exact List.forall_mem_cons.mpr ⟨ho.resolve.dict (dict_of_page hnode), hancestors⟩
  | @tree _ _ _ d _ _ _ _ _ _ hnode _ _ ihbelow ihrest =>
    obtain ⟨ho, hos⟩ := List.forall_mem_cons.mp hos
    have hheld : lib.HoldsDict roots d := ho.resolve.dict (dict_of_tree hnode)
    have hkids : ∀ kid ∈ kids lib d, lib.Holds roots kid := by
      unfold kids
      cases hitems : lib.array? d "Kids" with
      | none => exact fun _ hkid => absurd hkid List.not_mem_nil
      | some items => exact hheld.items hitems
    have hinner := ihbelow (List.forall_mem_cons.mpr ⟨hheld, hancestors⟩) hkids
    intro page hpage
    rcases List.mem_append.mp hpage with hpage | hpage
    · exact hinner page hpage
    · exact ihrest hancestors hos page hpage
  | other _ _ _ ih => exact ih hancestors (List.forall_mem_cons.mp hos).2

theorem leaves_held {root : Obj} (h : lib.Holds roots root) :
    ∀ leaf ∈ leaves lib root, leaf.Held lib roots := by
  intro leaf hleaf
  unfold leaves at hleaf
  split at hleaf
  · rename_i w hw
    obtain ⟨after, found, hvisits, hstands⟩ := leads_of_walk hw [] [] .start
    rw [hstands.leaves, List.nil_append] at hleaf
    obtain ⟨i, hi, rfl⟩ := List.mem_mapIdx.mp hleaf
    refine hvisits.held (fun _ hd => absurd hd List.not_mem_nil) ?_ _ (List.getElem_mem hi) i
    exact fun o ho => List.mem_singleton.mp ho ▸ h
  · cases hleaf

end PageTree

/-! ## What is opened -/

namespace Document

/-- **A document that is opened** is the library of its file with the leaves under its root. -/
theorem ofBytes_eq_ok_iff {file : Bytes} {options : Options} {capacity : Nat} {inflate : Inflater}
    {jpeg : JpegReader} {order : Dict.Order} {doc : Document} :
    ofBytes file options capacity inflate jpeg order = .ok doc ↔
      ∃ lib catalog root, Scan.file inflate file = .ok lib ∧
        doc.lib = { lib with inflate, jpeg, order } ∧ doc.lib.catalog? = some catalog ∧
        catalog.get? "Pages" = some root ∧ doc.options = options ∧
        doc.memory = .initial doc.lib capacity ∧
        doc.pages = ((PageTree.leaves doc.lib root).map Page.ofLeaf).toArray := by
  constructor
  · intro h
    unfold ofBytes at h
    cases hfile : Scan.file inflate file with
    | error e =>
      rw [hfile] at h
      cases h
    | ok lib =>
      rw [hfile] at h
      dsimp only [bind, Except.bind] at h
      split at h
      · cases h
      · split at h
        · cases h
        · cases h
          exact ⟨lib, _, _, rfl, rfl, by assumption, by assumption, rfl, rfl, rfl⟩
  · rintro ⟨lib, catalog, root, hfile, hlib, hcatalog, hroot, hoptions, hmemory, hpages⟩
    obtain ⟨_, _, _, _⟩ := doc
    dsimp only at hlib hcatalog hoptions hmemory hpages
    subst hlib hoptions hmemory hpages
    unfold ofBytes
    rw [hfile]
    dsimp only [bind, Except.bind]
    rw [hcatalog]
    dsimp only
    rw [hroot]

/-! ## A file of one page -/

/-- Some lines, with a line feed between them. -/
def lines (lines : List String) : Bytes := [0x0A].intercalate (lines.map Bytes.ofAscii)

/-- The root of a page tree with one page. -/
def singleTree : Dict := PageTree.treeNode (.array [.ref ⟨3, 0⟩])

/-- A page with some entries. -/
def singlePage (entries : Dict) : Dict := ("Type", .name "Page") :: entries

/-- The page where it stands in that tree. -/
def singleLeaf (entries : Dict) : Leaf := ⟨0, some ⟨3, 0⟩, singlePage entries, [singleTree]⟩

/-- What a file contains that has that page and some other objects. -/
def singleContents (entries : Dict) (others : List (ObjRef × Obj)) : Scan.Contents :=
  ⟨(⟨2, 0⟩, .dict singleTree) :: (⟨3, 0⟩, .dict (singlePage entries)) :: others,
    [[("Root", .dict [("Pages", .ref ⟨2, 0⟩)])]]⟩

theorem leaves_single {lib : Library} {entries : Dict}
    (htree : lib.find? ⟨2, 0⟩ = some (.dict singleTree))
    (hpage : lib.find? ⟨3, 0⟩ = some (.dict (singlePage entries))) :
    PageTree.leaves lib (.ref ⟨2, 0⟩) = [singleLeaf entries] := by
  have hkids : PageTree.kids lib singleTree = [.ref ⟨3, 0⟩] := PageTree.kids_treeNode rfl
  have hbelow : PageTree.Visits lib [singleTree] (PageTree.kids lib singleTree) [⟨2, 0⟩]
      [⟨2, 0⟩, ⟨3, 0⟩] [⟨some ⟨3, 0⟩, singlePage entries, [singleTree]⟩] := by
    rw [hkids]
    exact .page (by rintro _ ⟨⟩; decide) ((PageTree.ofObj_ref hpage).trans rfl) .nil
  have hvisits : PageTree.Visits lib [] [.ref ⟨2, 0⟩] [] [⟨2, 0⟩, ⟨3, 0⟩]
      ([⟨some ⟨3, 0⟩, singlePage entries, [singleTree]⟩] ++ []) :=
    .tree (fun _ _ => List.not_mem_nil)
      ((PageTree.ofObj_ref htree).trans (PageTree.ofObj_treeNode lib _)) hbelow .nil
  obtain ⟨w, hw, hstands⟩ := PageTree.foldlM_of_visits hvisits .start
  have hwalk : PageTree.walk lib [] .start (.ref ⟨2, 0⟩) = some w := by simpa using hw
  rw [PageTree.leaves, hwalk]
  dsimp only
  rw [hstands.leaves]
  rfl

/-- A file of one page is opened with that page. -/
theorem ofBytes_single {file : Bytes} {c : Scan.Contents} {entries : Dict} (capacity : Nat)
    (hof : c.Of file) (hpacking : c.packing = [])
    (htrailer : c.trailer = [("Root", .dict [("Pages", .ref ⟨2, 0⟩)])])
    (htree : c.plain.reverse.lookup ⟨2, 0⟩ = some (.dict singleTree))
    (hpage : c.plain.reverse.lookup ⟨3, 0⟩ = some (.dict (singlePage entries))) :
    ∃ lib, ofBytes file .default capacity =
        .ok ⟨lib, .default, .initial lib capacity, #[.ofLeaf (singleLeaf entries)]⟩ ∧
      ∀ r, lib.find? r = c.plain.reverse.lookup r := by
  have hunpacked : Scan.unpackAll .none c.library c.packing = .ok c.library := by
    rw [hpacking]
    rfl
  have hread : c.library.trailer = [("Root", .dict [("Pages", .ref ⟨2, 0⟩)])] :=
    (Scan.Contents.trailer_unpacked hunpacked).trans htrailer
  have hfile : Scan.file .none file = .ok c.library :=
    Scan.file_eq_ok_iff.mpr ⟨c, _, hof, hunpacked, Scan.rooted_eq_ok (by rw [hread]; rfl) rfl⟩
  let lib : Library := { c.library with inflate := .none, jpeg := .none, order := .asWritten }
  have hcatalog : lib.catalog? = some [("Pages", .ref ⟨2, 0⟩)] := by
    unfold Library.catalog? Library.dict? Library.get?
    rw [show lib.trailer = _ from hread]
    rfl
  have hleaves : PageTree.leaves lib (.ref ⟨2, 0⟩) = [singleLeaf entries] :=
    leaves_single ((c.find?_library _).trans htree) ((c.find?_library _).trans hpage)
  refine ⟨lib, ofBytes_eq_ok_iff.mpr ?_, c.find?_library⟩
  exact ⟨c.library, _, .ref ⟨2, 0⟩, hfile, rfl, hcatalog, rfl, rfl, rfl, by rw [hleaves]; rfl⟩

end Document

/-- A page whose content is one stream is read as that stream is interpreted. -/
theorem Page.read_single {lib : Library} {options : Options} (leaf : Leaf) {r : ObjRef}
    {s : StreamObj} {decoded : Decoded} {scene : Scene} {m m₁ m₂ : Memory}
    (hcontents : leaf.dict.get? "Contents" = some (.ref r)) (hfind : lib.find? r = some s.toObj)
    (hdecode : Memory.decode lib.inflate s { m with nextScope := m.nextScope + 1 } =
      (.ok (.ok decoded), m₁))
    (hscene : Content.interpret lib .shapes options [⟨m.nextScope, leaf.resources lib⟩] .initial
      decoded.data m₁ = (.ok (.ok scene), m₂)) :
    read lib options leaf m =
      (.ok ⟨⟨m.nextScope, leaf.resources lib⟩, readAnnotations lib leaf, decoded.data, s.ref.toList,
        scene.shapes, none⟩, m₂) := by
  have hs : lib.resolve (.ref r) = s.toObj := Library.resolve_ref hfind rfl
  have hentries : contentEntries lib leaf = [.ref r] := by
    unfold contentEntries
    rw [hcontents]
    dsimp only
    rw [hs]
    rfl
  have hread : readEntries lib true #[] [] (contentEntries lib leaf)
      { m with nextScope := m.nextScope + 1 } = (.ok (some decoded.data, s.ref.toList), m₁) := by
    rw [hentries]
    unfold readEntries
    rw [hs]
    dsimp only [StreamObj.toObj, Obj.stream?]
    rw [bind_of_eq hdecode]
    cases s.ref <;> simp [readEntries]
  rw [read_eq, bind_of_eq (Scope.create_apply _ m)]
  unfold readIn
  rw [bind_of_eq hread]
  dsimp only
  rw [bind_of_eq hscene]
  rfl

end PdfScene
