import PdfScene.Store.Memory

/-!
# Reading fonts

A font dictionary always gives a font: whatever it does not say has a default.
-/

set_option autoImplicit false

namespace PdfScene.Font

/-- Widths by code. -/
abbrev Widths := Std.HashMap UInt32 Float

/-- Gives codes from `code` on the widths in a list; an item that is no number is passed over. -/
def assignList (lib : Library) (widths : Widths) (code : UInt32) : List Obj → Widths
  | [] => widths
  | o :: rest =>
    match (lib.resolve o).num? with
    | some width => assignList lib (widths.insert code width) (code + 1) rest
    | none => assignList lib widths (code + 1) rest

/-- Gives `count` codes from `code` on one width. -/
def assignRun (widths : Widths) (code : UInt32) (width : Float) : Nat → Widths
  | 0 => widths
  | count + 1 => assignRun (widths.insert code width) (code + 1) width count

/-- How far a run of codes may reach past its first. -/
def runLimit : Nat := 0xFFFF

/-- How many codes a run from `first` to `last` gives a width. -/
def runLength (first last : UInt32) : Nat :=
  if last < first then 0 else min (last - first).toNat runLimit + 1

/-- The widths that a list of entries gives: a first code with a list of widths, or a first and a
last code with one width. Reading stops at anything else. -/
def assign (lib : Library) (widths : Widths) : List Obj → Widths
  | first :: second :: rest =>
    match (lib.resolve first).num?, lib.resolve second with
    | some first, .array list => assign lib (assignList lib widths first.toUInt32 list) rest
    | some first, .num last =>
      match rest with
      | third :: rest =>
        match (lib.resolve third).num? with
        | some width =>
          let first := first.toUInt32
          assign lib (assignRun widths first width (runLength first last.toUInt32)) rest
        | none => widths
      | [] => widths
    | _, _ => widths
  | _ => widths

/-- The font that a composite font takes its glyphs from. -/
def descendant? (lib : Library) (d : Dict) : Option Dict :=
  ((lib.array? d "DescendantFonts").bind List.head?).bind fun o => (lib.resolve o).dict?

/-- The widths of a composite font, and the width of all other codes. -/
def readComposite (lib : Library) (d : Dict) : Widths × Float :=
  match descendant? lib d with
  | none => (∅, 1000)
  | some descendant =>
    (assign lib ∅ ((lib.array? descendant "W").getD []),
      (lib.num? descendant "DW").getD 1000)

/-- From glyph space to text space: by thousandths, unless glyphs are content. -/
def readMatrix (lib : Library) (kind : FontKind) (d : Dict) : Affine Float :=
  let thousandths := Affine.scale 0.001 0.001
  if kind = .type3 then (lib.matrix? d "FontMatrix").getD thousandths else thousandths

/-- The font of a dictionary, with the texts of its codes. -/
def ofDict (lib : Library) (name : String) (d : Dict) (texts : Option CMap) : Font :=
  let kind := FontKind.ofName ((lib.name? d "Subtype").getD "")
  let composite := if kind.isComposite then readComposite lib d else (∅, 1000)
  { name
    kind
    baseFont := (lib.name? d "BaseFont").getD "Unknown"
    firstChar :=
      match lib.int? d "FirstChar" with
      | some n => UInt32.ofNat (max 0 n).toNat
      | none => 0
    widths := (lib.numbers? d "Widths").map List.toArray
    missingWidth :=
      ((lib.dict? d "FontDescriptor").bind fun descriptor =>
        lib.num? descriptor "MissingWidth").getD 0
    cidWidths := composite.1
    defaultCidWidth := composite.2
    matrix := readMatrix lib kind d
    texts }

/-- Reads a font. Texts that cannot be decoded are left out. -/
def read (lib : Library) (name : String) (d : Dict) : Run Font := do
  match lib.stream? d "ToUnicode" with
  | none => pure (ofDict lib name d none)
  | some s =>
    match ← Memory.decode lib.inflate s with
    | .ok decoded => pure (ofDict lib name d (some (CMap.ofBytes decoded.data)))
    | .error _ => pure (ofDict lib name d none)

end PdfScene.Font
