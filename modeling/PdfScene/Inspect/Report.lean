import PdfScene.Document.Basic
import PdfScene.Inspect.Request
import PdfScene.Scene.Recording

/-!
# What the inspector reports

The report on a document is a list of lines: how many objects and pages there are and then, page by
page, what was asked for. A page lets go of its content once it has been reported on. Lines are written
as they come up, so those before a panic are there.
-/

set_option autoImplicit false

namespace PdfScene.Inspect

/-- How a page is looked at: by its crop box. -/
def Request.view (r : Request) : View := ⟨.crop, r.rotation, r.zoom⟩

/-- A text with blanks before it, to a width. -/
def padLeft (width : Nat) (s : String) : String :=
  String.ofList (List.replicate (width - s.length) ' ') ++ s

/-- A text with blanks behind it, to a width. -/
def padRight (width : Nat) (s : String) : String :=
  s ++ String.ofList (List.replicate (width - s.length) ' ')

/-- Size, rotation and transform of a page. -/
def pageLines (lib : Library) (r : Request) (leaf : Leaf) : List String :=
  let total := leaf.rotation lib r.rotation
  let size := Frame.size (leaf.boundary lib .crop) total r.zoom
  ["Size: " ++ Decimal.fixed 2 size.1 ++ " x " ++ Decimal.fixed 2 size.2 ++ " (zoom " ++
      Decimal.text r.zoom ++ ", rotation " ++ Decimal.text total ++ "°)",
    "Stored /Rotate: " ++ Decimal.text (leaf.storedRotation lib),
    "Transform: " ++ (Page.baseTransform lib leaf r.view).text]

def boxLines (lib : Library) (leaf : Leaf) : List String :=
  Boundary.all.map fun b => "  " ++ padRight 9 b.key ++ " " ++ (leaf.boundary lib b).text

/-- How many shapes of each sort there are. -/
def shapeLines (shapes : Shapes) : List String :=
  let count (p : Mark → Bool) : Nat := shapes.countP fun s => p s.mark
  let paths := count fun
    | .path _ _ _ => true
    | _ => false
  let shadings := count fun
    | .shading _ => true
    | _ => false
  let undecoded := count fun
    | .image _ none _ => true
    | _ => false
  let summary :=
    "Shapes: " ++ toString shapes.size ++ " (paths " ++ toString paths ++ ", text runs " ++
      toString shapes.texts.size ++ ", images " ++ toString shapes.images.size ++ ", shadings " ++
      toString shadings ++ ")"
  if undecoded = 0 then [summary]
  else [summary, "  " ++ toString undecoded ++ " image(s) without a decoder"]

/-- How much painting a page asks of a device. Each appearance is painted between a saved and a
restored state, and so is the page. -/
def paintLines (result : Except Error Unit) (r : Recording) : List String :=
  let saves := r.records.countP fun
    | .save => true
    | _ => false
  match result with
  | .ok () =>
    ["Painted operations: " ++ toString r.records.size ++ " (" ++ toString (saves - 1) ++
      " annotation appearance(s))"]
  | .error e => ["Paint failed: " ++ e.message]

/-- The text of a page, with where each block starts. -/
def textLines (blocks : List TextBlock) : List String :=
  let coordinate (x : Float) : String := padLeft 7 (Decimal.fixed 2 x)
  if blocks.isEmpty then ["(no text)"]
  else
    blocks.filterMap fun b =>
      b.items.head?.map fun first =>
        "[" ++ coordinate first.origin.1 ++ ", " ++ coordinate first.origin.2 ++ "] " ++ b.text

/-! ## Writing -/

/-- A report under way, which a panic ends. What has been written stays. -/
abbrev Writing := ExceptT Panic (StateM (List String))

namespace Writing

def write (lines : List String) : Writing Unit := fun written => (.ok (), written ++ lines)

/-- What there is already, or the panic that has come up. -/
def of {α : Type} (r : Except Panic α) : Writing α := fun written => (r, written)

end Writing

open Writing

/-- The part on what a page shows. -/
def writeScene (r : Request) (i : Nat) (doc : Document) : Writing Document := do
  match doc.load i with
  | none => pure doc
  | some loaded =>
    let (content, doc) ← of loaded
    write (shapeLines content.shapes)
    match doc.paint i Recording.device .screen r.view true .empty with
    | none => pure doc
    | some painted =>
      let ((result, recording), doc) ← of painted
      write (paintLines result recording)
      pure doc

/-- The part on what a page says. -/
def writeText (i : Nat) (doc : Document) : Writing Document := do
  match doc.textBlocks i with
  | none => pure doc
  | some read =>
    let (blocks, doc) ← of read
    write (textLines blocks)
    pure doc

def writePage (r : Request) (doc : Document) (leaf : Leaf) : Writing Document := do
  let bar := "═══════════════"
  let i := leaf.index
  write [bar ++ " PAGE " ++ toString (i + 1) ++ " " ++ bar]
  if r.pages then write (pageLines doc.lib r leaf)
  if r.boxes then write (boxLines doc.lib leaf)
  let doc ← if r.shapes then writeScene r i doc else pure doc
  let doc ← if r.text then writeText i doc else pure doc
  write [""]
  pure (doc.dispose i false)

/-- The reports on pages, one after the other. -/
def writePages (r : Request) (doc : Document) : List Leaf → Writing Unit
  | [] => pure ()
  | leaf :: rest => do
    let doc ← writePage r doc leaf
    writePages r doc rest

def banner : List String :=
  let rule := String.ofList (List.replicate 59 '═')
  ["╔" ++ rule ++ "╗", "║" ++ padRight 59 "           PDF Page Inspector" ++ "║", "╚" ++ rule ++ "╝"]

def report (path : String) (r : Request) (doc : Document) : Writing Unit := do
  write (banner ++
    ["", "File: " ++ path, "Objects: " ++ toString doc.lib.size,
      "Pages: " ++ toString doc.pages.size, ""])
  writePages r doc (doc.pages.toList.map Page.leaf)

end PdfScene.Inspect
