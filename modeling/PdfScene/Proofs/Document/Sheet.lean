import Mathlib
import PdfScene.Document.Boundary
import PdfScene.Proofs.Geometry.Points
import PdfScene.Proofs.Number.Whole
import PdfScene.Proofs.Store.Chains

/-!
# The boundaries of a page

What a page says of its sheet, its crop box and its inner boundaries are arrays of four numbers, its own
or those of the nearest node above it. `Leaf.Nearest` says which entry that is and `Leaf.Corners` what it
states, if it states anything: two opposite corners, in any order. From there on boundaries are sets of
points. The sheet and the inner boundaries are what lies between the corners, and the crop box is what
the sheet and its entry share, if that has an area (`Leaf.boundaryBy_spec`).

No boundary is missing or turned inside out, since there is something to fall back on each time: US
letter paper for the sheet, the sheet for the crop box, and the crop box for what is inside it.
-/

set_option autoImplicit false

namespace PdfScene

open MeasureTheory

/-! ## Entries -/

theorem Library.get?_eq_some_iff {lib : Library} {d : Dict} {key : String} {o : Obj} :
    lib.get? d key = some o ↔
      ∃ entry, d.get? key = some entry ∧ lib.resolve entry ≠ .null ∧ o = lib.resolve entry := by
  have hnull (o : Obj) : o.isNull = true ↔ o = .null := by
    cases o <;> simp [Obj.isNull]
  rw [Library.get?, Option.bind_eq_some_iff]
  apply exists_congr
  intro entry
  dsimp only
  split
  · next h => simp [(hnull _).mp h]
  · next h =>
    have hne : lib.resolve entry ≠ .null := fun heq => h ((hnull _).mpr heq)
    simp [hne, eq_comm]

theorem mapM_eq_some_iff {α β : Type} {f : α → Option β} {l : List α} {out : List β} :
    l.mapM f = some out ↔ List.Forall₂ (fun a b => f a = some b) l out := by
  induction l generalizing out with
  | nil =>
    rw [List.mapM_nil, List.forall₂_nil_left_iff]
    exact Option.some_inj.trans eq_comm
  | cons a l ih =>
    rw [List.mapM_cons, List.forall₂_cons_left_iff]
    constructor
    · intro h
      obtain ⟨b, hb, h⟩ := Option.bind_eq_some_iff.mp h
      obtain ⟨bs, hbs, h⟩ := Option.bind_eq_some_iff.mp h
      exact ⟨b, bs, hb, ih.mp hbs, (Option.some_inj.mp h).symm⟩
    · rintro ⟨b, bs, hb, hbs, rfl⟩
      rw [hb, ih.mpr hbs]
      rfl

namespace Leaf

variable {lib : Library} {key : String} {ds : List Dict} {entry o : Obj}

/-- The entry of a key that counts in a row of dictionaries: the first that leads to anything but null. -/
inductive Nearest (lib : Library) (key : String) : List Dict → Obj → Prop
  | here {d : Dict} {ds : List Dict} {entry : Obj} (hentry : d.get? key = some entry)
      (hthere : lib.resolve entry ≠ .null) : Nearest lib key (d :: ds) entry
  | above {d : Dict} {ds : List Dict} {entry : Obj}
      (hnone : ∀ e, d.get? key = some e → lib.resolve e = .null) (h : Nearest lib key ds entry) :
      Nearest lib key (d :: ds) entry

theorem findSome?_eq_some_iff : (ds.findSome? fun d => lib.get? d key) = some o ↔
    ∃ entry, Nearest lib key ds entry ∧ o = lib.resolve entry := by
  induction ds with
  | nil =>
    constructor
    · intro h
      cases h
    · rintro ⟨_, hnearest, -⟩
      cases hnearest
  | cons d ds ih =>
    rw [List.findSome?_cons]
    cases hd : lib.get? d key with
    | some o' =>
      obtain ⟨entry, hentry, hthere, rfl⟩ := Library.get?_eq_some_iff.mp hd
      constructor
      · intro h
        exact ⟨entry, .here hentry hthere, (Option.some_inj.mp h).symm⟩
      · rintro ⟨other, hnearest, rfl⟩
        cases hnearest with
        | here hother _ => rw [Option.some_inj.mp (hentry.symm.trans hother)]
        | above hnone _ => exact absurd (hnone _ hentry) hthere
    | none =>
      have hnone : ∀ e, d.get? key = some e → lib.resolve e = .null := by
        intro e he
        by_contra hthere
        have hsome := Library.get?_eq_some_iff.mpr ⟨e, he, hthere, rfl⟩
        rw [hd] at hsome
        cases hsome
      rw [ih]
      apply exists_congr
      intro entry
      apply and_congr_left'
      constructor
      · exact .above hnone
      · intro h
        cases h with
        | here hentry hthere => exact absurd (hnone _ hentry) hthere
        | above _ h => exact h

/-! ## Corners -/

section Corners

variable {α : Type}

/-- The entry is an array of numbers, any of which may be a reference, and the first four of them make
two corners, as `number` reads them. -/
def Corners (lib : Library) (number : Float → α) (entry : Obj) (p q : α × α) : Prop :=
  ∃ items x1 y1 x2 y2 more, (lib.resolve entry).array? = some items ∧
    List.Forall₂ (fun item x => (lib.resolve item).num? = some x) items
      (x1 :: y1 :: x2 :: y2 :: more) ∧
    p = (number x1, number y1) ∧ q = (number x2, number y2)

theorem numbersOf?_eq_some_iff {xs : List Float} : lib.numbersOf? o = some xs ↔
    ∃ items, (lib.resolve o).array? = some items ∧
      List.Forall₂ (fun item x => (lib.resolve item).num? = some x) items xs := by
  rw [Library.numbersOf?, Option.bind_eq_some_iff]
  simp only [mapM_eq_some_iff]

theorem rectOf?_eq_some_iff [Scalar α] {number : Float → α} {r : Rect α} :
    rectOf? lib number o = some r ↔
      ∃ p q, Corners lib number o p q ∧ r = .ofCorners p.1 p.2 q.1 q.2 := by
  rw [rectOf?, Option.bind_eq_some_iff]
  constructor
  · rintro ⟨xs, hxs, hr⟩
    obtain ⟨items, hitems, hall⟩ := numbersOf?_eq_some_iff.mp hxs
    unfold Rect.ofList? at hr
    split at hr
    · next heq =>
      obtain ⟨x1, xs, rfl, rfl, hy1⟩ := List.map_eq_cons_iff.mp heq
      obtain ⟨y1, xs, rfl, rfl, hx2⟩ := List.map_eq_cons_iff.mp hy1
      obtain ⟨x2, xs, rfl, rfl, hy2⟩ := List.map_eq_cons_iff.mp hx2
      obtain ⟨y2, more, rfl, rfl, -⟩ := List.map_eq_cons_iff.mp hy2
      exact ⟨_, _, ⟨items, x1, y1, x2, y2, more, hitems, hall, rfl, rfl⟩,
        (Option.some_inj.mp hr).symm⟩
    · cases hr
  · rintro ⟨p, q, ⟨items, x1, y1, x2, y2, more, hitems, hall, rfl, rfl⟩, rfl⟩
    exact ⟨_, numbersOf?_eq_some_iff.mpr ⟨items, hitems, hall⟩, rfl⟩

/-- Which corners are stated depends on what an entry leads to. -/
theorem corners_resolve {number : Float → α} {p q : α × α} :
    Corners lib number (lib.resolve entry) p q ↔ Corners lib number entry p q := by
  have hresolve : lib.resolve (lib.resolve entry) = lib.resolve entry :=
    (Library.resolve_spec lib entry).2.2.2.2
  rw [Corners, Corners, hresolve]

/-- The entry that counts in a row of dictionaries states two corners. -/
def Stated (lib : Library) (number : Float → α) (key : String) (ds : List Dict) (p q : α × α) : Prop :=
  ∃ entry, Nearest lib key ds entry ∧ Corners lib number entry p q

theorem bind_rectOf?_eq_some_iff [Scalar α] {number : Float → α} {r : Rect α} :
    (ds.findSome? fun d => lib.get? d key).bind (rectOf? lib number) = some r ↔
      ∃ p q, Stated lib number key ds p q ∧ r = .ofCorners p.1 p.2 q.1 q.2 := by
  rw [Option.bind_eq_some_iff]
  constructor
  · rintro ⟨_, ho, hr⟩
    obtain ⟨entry, hnearest, rfl⟩ := findSome?_eq_some_iff.mp ho
    obtain ⟨p, q, hcorners, rfl⟩ := rectOf?_eq_some_iff.mp hr
    exact ⟨p, q, ⟨entry, hnearest, corners_resolve.mp hcorners⟩, rfl⟩
  · rintro ⟨p, q, ⟨entry, hnearest, hcorners⟩, rfl⟩
    exact ⟨_, findSome?_eq_some_iff.mpr ⟨entry, hnearest, rfl⟩,
      rectOf?_eq_some_iff.mpr ⟨p, q, corners_resolve.mpr hcorners, rfl⟩⟩

end Corners

/-! ## Boundaries -/

variable {number : Float → ℝ} {p q : ℝ × ℝ}

/-- The rectangle that the nearest entry states. -/
noncomputable def stated? (lib : Library) (number : Float → ℝ) (key : String) (ds : List Dict) :
    Option (Rect ℝ) :=
  (ds.findSome? fun d => lib.get? d key).bind (rectOf? lib number)

theorem Stated.eq (h : Stated lib number key ds p q) :
    stated? lib number key ds = some (.ofCorners p.1 p.2 q.1 q.2) :=
  bind_rectOf?_eq_some_iff.mpr ⟨p, q, h, rfl⟩

/-- Corners may be stated in more than one way, but not more than one rectangle. -/
theorem Stated.uIcc_eq {p' q' : ℝ × ℝ} (h : Stated lib number key ds p q)
    (h' : Stated lib number key ds p' q') : Set.uIcc p q = Set.uIcc p' q' := by
  rw [← Rect.points_ofCorners p q, ← Rect.points_ofCorners p' q',
    Option.some_inj.mp (h.eq.symm.trans h'.eq)]

theorem stated?_eq_none (h : ∀ p q, ¬ Stated lib number key ds p q) :
    stated? lib number key ds = none := by
  apply Option.eq_none_iff_forall_ne_some.mpr
  intro r hr
  obtain ⟨p, q, hstated, -⟩ := bind_rectOf?_eq_some_iff.mp hr
  exact h p q hstated

theorem upright_of_rectOf? {r : Rect ℝ} (h : rectOf? lib number o = some r) : r.Upright := by
  obtain ⟨p, q, -, rfl⟩ := rectOf?_eq_some_iff.mp h
  exact Rect.upright_ofCorners _ _ _ _

theorem upright_stated? {r : Rect ℝ} (h : stated? lib number key ds = some r) : r.Upright := by
  obtain ⟨o, -, ho⟩ := Option.bind_eq_some_iff.mp h
  exact upright_of_rectOf? ho

section Select

variable (leaf : Leaf)

theorem boundaryBy_media : leaf.boundaryBy lib number .media =
    (stated? lib number "MediaBox" leaf.lineage).getD ⟨0, 0, 612, 792⟩ := by
  have hletter : (⟨0, 0, 612, 792⟩ : Rect ℝ) = ⟨@OfNat.ofNat ℝ 0 (instOfNatOfScalar 0),
      @OfNat.ofNat ℝ 0 (instOfNatOfScalar 0), @OfNat.ofNat ℝ 612 (instOfNatOfScalar 612),
      @OfNat.ofNat ℝ 792 (instOfNatOfScalar 792)⟩ := by
    simp only [Scalar.zero_real, Scalar.ofNat_real]
  rw [hletter]
  rfl

theorem boundaryBy_crop : leaf.boundaryBy lib number .crop =
    ((stated? lib number "CropBox" leaf.lineage).bind fun crop =>
      crop.intersection? (leaf.boundaryBy lib number .media)).getD
        (leaf.boundaryBy lib number .media) := by
  have hentry : (leaf.inherited? lib "CropBox").bind (rectOf? lib number) =
      stated? lib number "CropBox" leaf.lineage := rfl
  unfold boundaryBy Boundary.select
  rw [hentry]
  cases stated? lib number "CropBox" leaf.lineage <;> rfl

theorem boundaryBy_inner {b : Boundary} (hmedia : b ≠ .media) (hcrop : b ≠ .crop) :
    leaf.boundaryBy lib number b =
      (stated? lib number b.key [leaf.dict]).getD (leaf.boundaryBy lib number .crop) := by
  have hown : stated? lib number b.key [leaf.dict] =
      (lib.get? leaf.dict b.key).bind (rectOf? lib number) := by
    rw [stated?, List.findSome?_singleton]
  rw [hown]
  cases b with
  | media => exact absurd rfl hmedia
  | crop => exact absurd rfl hcrop
  | bleed | trim | art => rfl

theorem upright_media : (leaf.boundaryBy lib number .media).Upright := by
  rw [boundaryBy_media]
  cases h : stated? lib number "MediaBox" leaf.lineage with
  | some r => exact upright_stated? h
  | none => exact ⟨by norm_num, by norm_num⟩

/-- **The crop box is what the sheet leaves of its entry**, or the whole sheet if that is nothing. -/
theorem crop_cases :
    (∃ p q, Stated lib number "CropBox" leaf.lineage p q ∧
      0 < volume ((leaf.boundaryBy lib number .media).points ∩ Set.uIcc p q) ∧
      (leaf.boundaryBy lib number .crop).Upright ∧
      (leaf.boundaryBy lib number .crop).points =
        (leaf.boundaryBy lib number .media).points ∩ Set.uIcc p q) ∨
    (∀ p q, Stated lib number "CropBox" leaf.lineage p q →
      volume ((leaf.boundaryBy lib number .media).points ∩ Set.uIcc p q) = 0) ∧
      leaf.boundaryBy lib number .crop = leaf.boundaryBy lib number .media := by
  rw [boundaryBy_crop]
  generalize leaf.boundaryBy lib number .media = sheet
  by_cases hentry : ∃ p q, Stated lib number "CropBox" leaf.lineage p q
  · obtain ⟨p, q, hstated⟩ := hentry
    obtain ⟨hover, happart⟩ := Rect.intersection?_spec (.ofCorners p.1 p.2 q.1 q.2) sheet
    rw [Rect.points_ofCorners, Set.inter_comm] at hover happart
    rw [hstated.eq, Option.bind_some]
    by_cases hflat : volume (sheet.points ∩ Set.uIcc p q) = 0
    · right
      refine ⟨fun p' q' hstated' => ?_, by rw [happart hflat, Option.getD_none]⟩
      rw [hstated'.uIcc_eq hstated]
      exact hflat
    · left
      obtain ⟨t, ht, hupright, hpoints⟩ := hover (pos_iff_ne_zero.mpr hflat)
      refine ⟨p, q, hstated, pos_iff_ne_zero.mpr hflat, ?_, ?_⟩
      · rwa [ht, Option.getD_some]
      · rw [ht, Option.getD_some, hpoints]
  · have hnone : ∀ p q, ¬ Stated lib number "CropBox" leaf.lineage p q :=
      fun p q hstated => hentry ⟨p, q, hstated⟩
    right
    refine ⟨fun p q hstated => absurd hstated (hnone p q), ?_⟩
    rw [stated?_eq_none hnone, Option.bind_none, Option.getD_none]

end Select

/-- **The boundaries of a page are well formed**, however the doubles of the file are read. None of them
has a side of negative length. The sheet is what lies between the corners that the nearest entry states,
or US letter paper. The crop box is within the sheet: it is what the sheet and the nearest entry share,
if that has an area, and the sheet itself otherwise. Each boundary inside it is what the page's own entry
states, or the crop box. -/
theorem boundaryBy_spec (lib : Library) (number : Float → ℝ) (leaf : Leaf) :
    let box := leaf.boundaryBy lib number
    let shared (p q : ℝ × ℝ) := (box .media).points ∩ Set.uIcc p q
    (∀ b, (box b).Upright) ∧
      (∀ p q, Stated lib number "MediaBox" leaf.lineage p q → (box .media).points = Set.uIcc p q) ∧
      ((∀ p q, ¬ Stated lib number "MediaBox" leaf.lineage p q) → box .media = ⟨0, 0, 612, 792⟩) ∧
      (box .crop).points ⊆ (box .media).points ∧
      (∀ p q, Stated lib number "CropBox" leaf.lineage p q → 0 < volume (shared p q) →
        (box .crop).points = shared p q) ∧
      ((∀ p q, Stated lib number "CropBox" leaf.lineage p q → volume (shared p q) = 0) →
        box .crop = box .media) ∧
      ∀ b, b ≠ .media → b ≠ .crop →
        (∀ p q, Stated lib number b.key [leaf.dict] p q → (box b).points = Set.uIcc p q) ∧
        ((∀ p q, ¬ Stated lib number b.key [leaf.dict] p q) → box b = box .crop) := by
  intro box shared
  have hmedia : (box .media).Upright := upright_media leaf
  have hcases : (∃ p q, Stated lib number "CropBox" leaf.lineage p q ∧ 0 < volume (shared p q) ∧
      (box .crop).Upright ∧ (box .crop).points = shared p q) ∨
      (∀ p q, Stated lib number "CropBox" leaf.lineage p q → volume (shared p q) = 0) ∧
        box .crop = box .media := crop_cases leaf
  have hinner : ∀ b, b ≠ .media → b ≠ .crop →
      box b = (stated? lib number b.key [leaf.dict]).getD (box .crop) :=
    fun b => boundaryBy_inner leaf
  have hcrop : (box .crop).Upright := by
    obtain ⟨-, -, -, -, hupright, -⟩ | ⟨-, heq⟩ := hcases
    · exact hupright
    · rwa [heq]
  refine ⟨?upright, ?sheet, ?letter, ?within, ?shared, ?whole, ?inner⟩
  case upright =>
    intro b
    by_cases hb : b = .media
    · rwa [hb]
    by_cases hb' : b = .crop
    · rwa [hb']
    rw [hinner b hb hb']
    cases h : stated? lib number b.key [leaf.dict] with
    | some r => exact upright_stated? h
    | none => exact hcrop
  case sheet =>
    intro p q hstated
    show (leaf.boundaryBy lib number .media).points = _
    rw [boundaryBy_media, hstated.eq, Option.getD_some, Rect.points_ofCorners]
  case letter =>
    intro hnone
    show leaf.boundaryBy lib number .media = _
    rw [boundaryBy_media, stated?_eq_none hnone, Option.getD_none]
  case within =>
    obtain ⟨p, q, -, -, -, hpoints⟩ | ⟨-, heq⟩ := hcases
    · rw [hpoints]
      exact Set.inter_subset_left
    · rw [heq]
  case shared =>
    intro p q hstated harea
    obtain ⟨p', q', hstated', -, -, hpoints⟩ | ⟨hflat, -⟩ := hcases
    · show _ = (box .media).points ∩ Set.uIcc p q
      rw [hpoints, hstated.uIcc_eq hstated']
    · exact absurd (hflat p q hstated) harea.ne'
  case whole =>
    intro hflat
    obtain ⟨p, q, hstated, harea, -⟩ | ⟨-, heq⟩ := hcases
    · exact absurd (hflat p q hstated) harea.ne'
    · exact heq
  case inner =>
    intro b hb hb'
    constructor
    · intro p q hstated
      rw [hinner b hb hb', hstated.eq, Option.getD_some, Rect.points_ofCorners]
    · intro hnone
      rw [hinner b hb hb', stated?_eq_none hnone, Option.getD_none]

/-! ## A page with an inherited crop box -/

/-- Doubles as the whole numbers that they are, cut off where they are not. -/
def wholeNumber (x : Float) : ℝ := floatToInt x

theorem wholeNumber_double {n : Nat} (h : n < 2 ^ 53) : wholeNumber (Whole.double n) = n := by
  rw [wholeNumber, Whole.floatToInt_double h, Int.cast_natCast]

/-- An array of whole numbers. -/
def wholeNumbers (ns : List Nat) : Obj := .array (ns.map fun n => .num (Whole.double n))

theorem corners_wholeNumbers (lib : Library) {x1 y1 x2 y2 : Nat}
    (hsmall : ∀ n ∈ [x1, y1, x2, y2], n < 2 ^ 53) :
    Corners lib wholeNumber (wholeNumbers [x1, y1, x2, y2]) (x1, y1) (x2, y2) := by
  have hread : ∀ n ∈ [x1, y1, x2, y2], wholeNumber (Whole.double n) = n :=
    fun n hn => wholeNumber_double (hsmall n hn)
  refine ⟨_, Whole.double x1, Whole.double y1, Whole.double x2, Whole.double y2, [], rfl, ?_, ?_, ?_⟩
  · repeat constructor
  · rw [hread x1 (by simp), hread y1 (by simp)]
  · rw [hread x2 (by simp), hread y2 (by simp)]

/-- A page that states nothing, below a node with a sheet and a crop box that is higher than the sheet
and whose upper right corner comes first. -/
def cropped : Leaf :=
  { index := 0
    ref := none
    dict := []
    ancestors := [[("MediaBox", wholeNumbers [0, 0, 600, 800]),
      ("CropBox", wholeNumbers [400, 1000, 50, 100])]] }

theorem boundaryBy_spec_cropped :
    (cropped.boundaryBy .empty wholeNumber .crop).points = Set.Icc (50, 100) (400, 800) ∧
      cropped.boundaryBy .empty wholeNumber .art = cropped.boundaryBy .empty wholeNumber .crop := by
  obtain ⟨-, hsheet, -, -, hshared, -, hinner⟩ := boundaryBy_spec .empty wholeNumber cropped
  have hnothing (key : String) : ∀ e, Dict.get? [] key = some e → Library.empty.resolve e = .null := by
    intro e he
    cases he
  have hmedia : Stated .empty wholeNumber "MediaBox" cropped.lineage
      ((0 : ℕ), (0 : ℕ)) ((600 : ℕ), (800 : ℕ)) :=
    ⟨_, .above (hnothing _) (.here rfl nofun), corners_wholeNumbers .empty (by decide)⟩
  have hcrop : Stated .empty wholeNumber "CropBox" cropped.lineage
      ((400 : ℕ), (1000 : ℕ)) ((50 : ℕ), (100 : ℕ)) :=
    ⟨_, .above (hnothing _) (.here rfl nofun), corners_wholeNumbers .empty (by decide)⟩
  have hshare : Set.uIcc (((0 : ℕ), (0 : ℕ)) : ℝ × ℝ) ((600 : ℕ), (800 : ℕ)) ∩
      Set.uIcc ((400 : ℕ), (1000 : ℕ)) ((50 : ℕ), (100 : ℕ)) = Set.Icc (50, 100) (400, 800) := by
    rw [Set.uIcc, Set.uIcc, Set.Icc_inter_Icc]
    norm_num
  specialize hshared _ _ hcrop
  rw [hsheet _ _ hmedia] at hshared
  beta_reduce at hshared
  rw [hshare] at hshared
  constructor
  · apply hshared
    rw [← Set.Icc_prod_Icc, Measure.volume_eq_prod, Measure.prod_prod, Real.volume_Icc,
      Real.volume_Icc]
    norm_num
  · apply (hinner .art nofun nofun).2
    rintro p q ⟨entry, hnearest, -⟩
    cases hnearest with
    | here hentry _ => cases hentry
    | above _ h => cases h

end Leaf

end PdfScene
