import Mathlib.Data.List.Basic
import PdfScene.Color.Read
import PdfScene.Proofs.Store.Running

/-!
# How many operands a colour takes

Conversion looks its operands up by their places, and it cuts the entries of an indexed space out of a
table. It has no answer, and is a panic, if an operand or a byte of a table is asked for that there is
not. In a space that is `Consistent`, where every profile has as many components as the space that
stands in for it, it answers for as many operands as the space has components (`isSome_convert?`), so
nothing missing is ever asked for.

Spaces that are read are consistent but for one thing: a profile of two components, for which there is
no device space, may have one of three to stand in for it (`readWithin_profiled`).
-/

set_option autoImplicit false

namespace PdfScene.ColorSpace

/-! ## Consistent spaces -/

/-- A space, and those that it is built from. -/
inductive Part (part : ColorSpace) : ColorSpace → Prop where
  | self : Part part part
  | icc {n : Nat} {alternate : ColorSpace} : Part part alternate → Part part (icc n alternate)
  | indexed {base : ColorSpace} {last : Nat} {table : Array UInt8} :
      Part part base → Part part (indexed base last table)
  | separation {ink : String} {alternate : ColorSpace} :
      Part part alternate → Part part (separation ink alternate)
  | deviceN {n : Nat} {alternate : ColorSpace} :
      Part part alternate → Part part (deviceN n alternate)
  | stencil {underlying : ColorSpace} : Part part underlying → Part part (stencil underlying)

/-- Every profile in a space has as many components as the space that stands in for it. -/
def Consistent (space : ColorSpace) : Prop :=
  ∀ n alternate, Part (icc n alternate) space → alternate.components = n

variable {space base alternate underlying : ColorSpace} {n last : Nat} {table : Array UInt8}
  {ink : String}

theorem Consistent.icc (h : (icc n alternate).Consistent) :
    alternate.components = n ∧ alternate.Consistent := by
  constructor
  · exact h n alternate .self
  · intro k a hpart
    exact h k a (.icc hpart)

theorem Consistent.indexed (h : (indexed base last table).Consistent) : base.Consistent := by
  intro k a hpart
  exact h k a (.indexed hpart)

theorem Consistent.stencil (h : (stencil underlying).Consistent) : underlying.Consistent := by
  intro k a hpart
  exact h k a (.stencil hpart)

/-! ## Nothing missing is asked for -/

theorem mapM_some {α β : Type} {f : α → Option β} {g : α → β} {l : List α}
    (h : ∀ a ∈ l, f a = some (g a)) : l.mapM f = some (l.map g) := by
  induction l with
  | nil => rfl
  | cons a l ih =>
    obtain ⟨ha, hl⟩ := List.forall_mem_cons.mp h
    rw [List.mapM_cons, ha, ih hl]
    rfl

/-- An entry within the table is there, with as many components as it has bytes. -/
theorem slice?_within {start : Nat} (h : start + n ≤ table.size) :
    ∃ entry, slice? table start n = some entry ∧ entry.length = n := by
  have hthere : ∀ i ∈ List.range n, (table[start + i]?).map (fun b => Float.ofNat b.toNat / 255) =
      some (Float.ofNat (table.getD (start + i) 0).toNat / 255) := by
    intro i hi
    have hbound : start + i < table.size := by
      have := List.mem_range.mp hi
      omega
    simp [hbound]
  refine ⟨_, mapM_some hthere, ?_⟩
  rw [List.length_map, List.length_range]

/-- **In a consistent space, conversion asks only for operands and bytes that are there.** The
induction is on the space. Its two halves need each other: an index beyond the table makes the initial
colour, and the initial colour of an indexed space is converted. -/
theorem isSome_convert? (h : space.Consistent) :
    (∀ c, c.length = space.components → (space.convert? c).isSome) ∧ space.initialColor?.isSome := by
  induction space with
  | deviceGray | calGray | separation ink alternate =>
    refine ⟨?_, rfl⟩
    intro c hc
    obtain ⟨g, rfl⟩ := List.length_eq_one_iff.mp hc
    rfl
  | deviceRgb | calRgb | lab minA maxA minB maxB =>
    refine ⟨?_, rfl⟩
    intro c hc
    obtain ⟨x, y, z, rfl⟩ := List.length_eq_three.mp hc
    rfl
  | deviceCmyk =>
    refine ⟨?_, rfl⟩
    intro c hc
    match c, hc with
    | [_, _, _, _], _ => rfl
  | deviceN n alternate | pattern => exact ⟨fun _ _ => rfl, rfl⟩
  | icc n alternate ih =>
    obtain ⟨hcomponents, halternate⟩ := h.icc
    obtain ⟨hconvert, hinitial⟩ := ih halternate
    refine ⟨?_, hinitial⟩
    intro c hc
    exact hconvert c (hc.trans hcomponents.symm)
  | stencil underlying ih =>
    refine ⟨?_, rfl⟩
    intro c hc
    exact (ih h.stencil).1 c hc
  | indexed base last table ih =>
    obtain ⟨hconvert, hinitial⟩ := ih h.indexed
    -- what either half comes to once it has an index
    have hentry : ∀ start, (if start + base.components ≤ table.size then do
          let entry ← slice? table start base.components
          base.convert? entry
        else base.initialColor?).isSome := by
      intro start
      split
      · rename_i hbound
        obtain ⟨entry, hslice, hlength⟩ := slice?_within hbound
        rw [hslice]
        exact hconvert entry hlength
      · exact hinitial
    constructor
    · intro c hc
      obtain ⟨x, rfl⟩ := List.length_eq_one_iff.mp hc
      exact hentry (index x last * base.components)
    · exact hentry (index 0 last * base.components)

theorem isSome_toColor? (h : space.Consistent) (c : List Float) : (space.toColor? c).isSome := by
  obtain ⟨hconvert, hinitial⟩ := isSome_convert? h
  unfold toColor?
  split
  · rename_i hlength
    exact hconvert c hlength
  · exact hinitial

/-! ## Spaces that are read -/

/-- A space may stand in for a profile of `n` components: it has as many, or three lights stand in for
two. -/
def StandsFor (alternate : ColorSpace) (n : Nat) : Prop :=
  alternate.components = n ∨ n = 2 ∧ alternate = deviceRgb

/-- Every profile in a space has a space that may stand in for it. -/
def Profiled (space : ColorSpace) : Prop :=
  ∀ n alternate, Part (icc n alternate) space → alternate.StandsFor n

/-- The device space for one to four components may stand in for a profile. -/
theorem standsFor_ofComponents (hlow : 1 ≤ n) (hhigh : n ≤ 4) : (ofComponents n).StandsFor n := by
  have hn : n = 1 ∨ n = 2 ∨ n = 3 ∨ n = 4 := by omega
  rcases hn with rfl | rfl | rfl | rfl
  · exact .inl rfl
  · exact .inr ⟨rfl, rfl⟩
  · exact .inl rfl
  · exact .inl rfl

namespace Profiled

theorem ofComponents (n : Nat) : (ofComponents n).Profiled := by
  intro k alternate hpart
  unfold ColorSpace.ofComponents at hpart
  split_ifs at hpart <;> cases hpart

theorem ofDeviceName? {name : String} (h : ofDeviceName? name = some space) : space.Profiled := by
  intro n alternate hpart
  unfold ColorSpace.ofDeviceName? at h
  split_ifs at h <;> cases h <;> cases hpart

theorem ofName? {name : String} (h : ofName? name = some space) : space.Profiled := by
  rcases Option.or_eq_some_iff.mp h with h | ⟨-, h⟩
  · exact .ofDeviceName? h
  · intro n alternate hpart
    unfold ofCalibratedName? at h
    split_ifs at h <;> cases h <;> cases hpart

theorem icc (h : alternate.Profiled) (hstands : alternate.StandsFor n) :
    (icc n alternate).Profiled := by
  intro k a hpart
  cases hpart with
  | self => exact hstands
  | icc hpart => exact h k a hpart

theorem indexed (h : base.Profiled) : (indexed base last table).Profiled := by
  intro k a hpart
  cases hpart with
  | indexed hpart => exact h k a hpart

theorem separation (h : alternate.Profiled) : (separation ink alternate).Profiled := by
  intro k a hpart
  cases hpart with
  | separation hpart => exact h k a hpart

theorem deviceN (h : alternate.Profiled) : (deviceN n alternate).Profiled := by
  intro k a hpart
  cases hpart with
  | deviceN hpart => exact h k a hpart

theorem stencil (h : underlying.Profiled) : (stencil underlying).Profiled := by
  intro k a hpart
  cases hpart with
  | stencil hpart => exact h k a hpart

/-- What a profile states about itself, and what it leaves to its alternate, comes to a number of
components that the alternate or a device space has. -/
theorem ofProfile (declared : Option Int) {alternate : Option ColorSpace}
    (h : ∀ a, alternate = some a → a.Profiled) : (ofProfile declared alternate).Profiled := by
  have hdevice : ∀ n : Int, (ColorSpace.ofComponents (max 1 (min 4 n)).toNat).StandsFor
      (max 1 (min 4 n)).toNat := by
    intro n
    apply standsFor_ofComponents <;> omega
  cases alternate with
  | none =>
    cases declared with
    | none => exact (Profiled.ofComponents 3).icc (.inl rfl)
    | some n => exact (Profiled.ofComponents _).icc (hdevice n)
  | some a =>
    cases declared with
    | none =>
      unfold ColorSpace.ofProfile
      dsimp only
      rw [if_pos rfl]
      exact (h a rfl).icc (.inl rfl)
    | some n =>
      unfold ColorSpace.ofProfile
      dsimp only
      split
      · rename_i hcomponents
        exact (h a rfl).icc (.inl hcomponents)
      · exact (Profiled.ofComponents _).icc (hdevice n)

end Profiled

/-- A computation that comes to a space, if it comes to one, in which all profiles are stood in for. -/
def ReadsProfiled (x : Run (Option ColorSpace)) : Prop :=
  ∀ m space, (x m).1 = .ok (some space) → space.Profiled

namespace ReadsProfiled

theorem ofOption {a : Option ColorSpace} (h : ∀ s, a = some s → s.Profiled) :
    ReadsProfiled (pure a) := by
  intro m space heq
  exact h space (Except.ok.inj heq)

theorem none : ReadsProfiled (pure none) := .ofOption fun _ h => nomatch h

theorem some (h : space.Profiled) : ReadsProfiled (pure (some space)) :=
  .ofOption fun _ heq => Option.some.inj heq ▸ h

/-- What is read first may be anything. -/
theorem bind {α : Type} {x : Run α} {f : α → Run (Option ColorSpace)}
    (hf : ∀ a, ReadsProfiled (f a)) : ReadsProfiled (x >>= f) := by
  intro m space h
  obtain ⟨a, -, ha⟩ := Run.bind_eq_ok_iff.mp h
  exact hf a (x m).2 space ha

/-- What is read first is a space that another one is built from. -/
theorem bindSpace {x : Run (Option ColorSpace)} {f : Option ColorSpace → Run (Option ColorSpace)}
    (hx : ReadsProfiled x) (hf : ∀ a, (∀ s, a = Option.some s → s.Profiled) → ReadsProfiled (f a)) :
    ReadsProfiled (x >>= f) := by
  intro m space h
  obtain ⟨a, hread, ha⟩ := Run.bind_eq_ok_iff.mp h
  apply hf a _ (x m).2 space ha
  rintro s rfl
  exact hx m s hread

end ReadsProfiled

theorem readsProfiled_nested {nested : Obj → Run (Option ColorSpace)}
    (hnested : ∀ o, ReadsProfiled (nested o)) (params : List Obj) (i : Nat) :
    ReadsProfiled
      (match params[i]? with
      | some o => nested o
      | none => pure none) := by
  cases params[i]? with
  | none => exact .none
  | some o => exact hnested o

/-- A family is read with all its profiles stood in for, if the spaces that it is built from are. -/
theorem readFamily_profiled (lib : Library) {nested : Obj → Run (Option ColorSpace)}
    (hnested : ∀ o, ReadsProfiled (nested o)) (family : String) (params : List Obj) :
    ReadsProfiled (readFamily lib nested family params) := by
  have hspace := readsProfiled_nested hnested params
  have hgray : ∀ a : Option ColorSpace, (∀ s, a = some s → s.Profiled) →
      (a.getD deviceGray).Profiled := by
    intro a ha
    cases a with
    | none => exact .ofComponents 1
    | some s => exact ha s rfl
  unfold readFamily
  dsimp only
  split
  case h_1 | h_2 => exact .some (by rintro _ _ ⟨⟩)
  case h_3 => split <;> exact .some (by rintro _ _ ⟨⟩)
  case h_4 =>
    cases ((params[0]?).map lib.resolve).bind Obj.dict? with
    | none => exact .none
    | some d =>
      dsimp only
      split
      · apply (hnested _).bindSpace
        intro a ha
        exact .some (.ofProfile _ ha)
      · apply ReadsProfiled.none.bindSpace
        intro a ha
        exact .some (.ofProfile _ ha)
  -- the family of indexed spaces has two names
  case h_5 | h_6 =>
    apply (hspace 0).bindSpace
    intro base hbase
    cases base with
    | none => exact .none
    | some base =>
      dsimp only
      split
      · apply ReadsProfiled.bind
        intro table
        cases table with
        | none => exact .none
        | some table => exact .some (hbase base rfl).indexed
      · exact .none
  case h_7 =>
    cases (params[0]?).map lib.resolve with
    | none => exact .none
    | some ink =>
      apply (hspace 1).bindSpace
      intro a ha
      exact .some (hgray a ha).separation
  case h_8 =>
    cases ((params[0]?).map lib.resolve).bind Obj.array? with
    | none => exact .none
    | some inks =>
      apply (hspace 1).bindSpace
      intro a ha
      exact .some (hgray a ha).deviceN
  case h_9 =>
    apply (hspace 0).bindSpace
    intro a ha
    cases a with
    | none => exact .some (by rintro _ _ ⟨⟩)
    | some underlying => exact .some (ha underlying rfl).stencil
  case h_10 =>
    exact .ofOption fun _ h => .ofDeviceName? h

theorem readWithin_profiled (lib : Library) (room : Nat) (o : Obj) :
    ReadsProfiled (readWithin lib room o) := by
  induction room generalizing o with
  | zero => exact .none
  | succ room ih =>
    unfold readWithin
    split
    · exact .ofOption fun _ h => .ofName? h
    · split
      · exact readFamily_profiled lib ih _ _
      · exact .none
    · exact .none

/-- **Colour conversion never reads a missing operand.** Take any space that is read in which no
profile of two components is stood in for by a space of another number. Every profile in it, at any
depth, has as many components as the space that stands in for it, and whatever operands it is given,
however many there are, it makes a colour of them, and an initial colour, by asking only for operands
and bytes of tables that are there. -/
theorem read_consistent (lib : Library) (o : Obj) (m : Memory) (space : ColorSpace)
    (hread : (read lib o m).1 = .ok (some space))
    (htwo : ∀ alternate, Part (icc 2 alternate) space → alternate.components = 2) :
    space.Consistent ∧ (∀ c, (space.toColor? c).isSome) ∧ space.initialColor?.isSome := by
  have hconsistent : space.Consistent := by
    intro n alternate hpart
    rcases readWithin_profiled lib _ o m space hread n alternate hpart with h | ⟨rfl, -⟩
    · exact h
    · exact htwo alternate hpart
  refine ⟨hconsistent, ?_, (isSome_convert? hconsistent).2⟩
  intro c
  exact isSome_toColor? hconsistent c

/-- A table of two colours of a profile that two inks stand in for. -/
def inkTable : Obj :=
  .array [.name "Indexed",
    .array [.name "ICCBased",
      .dict [("Alternate", .array [.name "DeviceN", .array [.name "A", .name "B"], .name "DeviceCMYK"])]],
    .num 1, .str [0, 128, 255, 64]]

theorem read_consistent_inkTable :
    let space := indexed (icc 2 (deviceN 2 deviceCmyk)) 1 #[0, 128, 255, 64]
    (read .empty inkTable (.initial .empty 1)).1 = .ok (some space) ∧
      (∀ alternate, Part (icc 2 alternate) space → alternate.components = 2) ∧
      space.Consistent ∧ (space.toColor? [1]).isSome ∧ (space.toColor? [1, 1]).isSome := by
  intro space
  have hread : (read .empty inkTable (.initial .empty 1)).1 = .ok (some space) := rfl
  have htwo : ∀ alternate, Part (icc 2 alternate) space → alternate.components = 2 := by
    intro alternate hpart
    change Part (icc 2 alternate) (indexed (icc 2 (deviceN 2 deviceCmyk)) 1 #[0, 128, 255, 64]) at hpart
    cases hpart with
    | indexed hprofile =>
      cases hprofile with
      | self => rfl
      | icc hinks =>
        cases hinks with
        | deviceN hcmyk => cases hcmyk
  obtain ⟨hconsistent, hcolor, -⟩ :=
    read_consistent .empty inkTable (.initial .empty 1) space hread htwo
  exact ⟨hread, htwo, hconsistent, hcolor [1], hcolor [1, 1]⟩

/-- Where three lights stand in for two components, the third is asked for. -/
example : (ofProfile (some 2) none).toColor? [0, 0] = none := rfl

end PdfScene.ColorSpace
