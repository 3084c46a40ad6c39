import PdfScene.Content.HeldForm
import PdfScene.Document.Annotation
import PdfScene.Document.Boundary

/-!
# Pages

A page is a leaf of the page tree with what has been made of its content so far. Content is read when
it is first needed and may be let go of at any time, since it can be read again: the shapes when the
page is loaded, the text when it is asked for. A page whose content cannot be read paints nothing.
-/

set_option autoImplicit false

namespace PdfScene

/-- What is made of a page when it is loaded. -/
structure PageContent where
  scope : Scope
  annotations : List Annotation
  /-- The decoded content. -/
  data : Bytes
  /-- The streams that the content was decoded from. -/
  refs : List ObjRef
  shapes : Shapes
  /-- The text, once it has been asked for. -/
  text : Option (List TextBlock)

structure Page where
  leaf : Leaf
  content : Option PageContent

/-- How a page is painted. -/
structure PaintHints where
  target : Target
  /-- The colour of the sheet, if it is painted. -/
  background : Option Color
  annotations : Bool

namespace PaintHints

/-- White paper with annotations. -/
def screen : PaintHints := ⟨.screen, some .white, true⟩

/-- No paper, with annotations. -/
def print : PaintHints := ⟨.print, none, true⟩

end PaintHints

/-- How a page is looked at. -/
structure View where
  boundary : Boundary
  /-- The counter-clockwise turn that the viewer asks for, in degrees. -/
  rotation : Float
  zoom : Float

namespace Page

variable (lib : Library) (options : Options)

def ofLeaf (leaf : Leaf) : Page := ⟨leaf, none⟩

def isLoaded (p : Page) : Bool := p.content.isSome

def readAnnotations (leaf : Leaf) : List Annotation :=
  ((lib.array? leaf.dict "Annots").getD []).filterMap fun o => Annotation.read? lib o

/-- The entries that a page's content is made of. -/
def contentEntries (leaf : Leaf) : List Obj :=
  match leaf.dict.get? "Contents" with
  | none => []
  | some o => ((lib.resolve o).array?).getD [o]

/-- Decodes the streams among some entries and joins them by line feeds. `first` says that no entry
came before. One stream that cannot be decoded leaves no data; the references of the streams up to it
are known all the same. -/
def readEntries (first : Bool) (data : Array UInt8) (refs : List ObjRef) :
    List Obj → Run (Option Bytes × List ObjRef)
  | [] => pure (some data.toList, refs.reverse)
  | o :: rest => do
    match (lib.resolve o).stream? with
    | none => readEntries false data refs rest
    | some s =>
      let refs := s.ref.toList ++ refs
      match ← Memory.decode lib.inflate s with
      | .error _ => pure (none, refs.reverse)
      | .ok decoded =>
        let data := if first then data else data.push 10
        readEntries false (data ++ decoded.data) refs rest

def read (leaf : Leaf) : Run PageContent := do
  let scope ← Scope.create (leaf.resources lib)
  let annotations := readAnnotations lib leaf
  let (data, refs) ← readEntries lib true #[] [] (contentEntries lib leaf)
  match data with
  | none => pure ⟨scope, annotations, [], refs, #[], none⟩
  | some data =>
    match ← Content.interpret lib .shapes options [scope] .initial data with
    | .ok scene => pure ⟨scope, annotations, data, refs, scene.shapes, none⟩
    | .error _ => pure ⟨scope, annotations, data, refs, #[], none⟩

/-- Loads a page, unless it is loaded. -/
def load (p : Page) : Run (PageContent × Page) := do
  match p.content with
  | some content => pure (content, p)
  | none =>
    let content ← read lib options p.leaf
    pure (content, { p with content := some content })

/-- The streams whose decoded data a page that is loaded uses. -/
def streamRefs (content : PageContent) : List ObjRef :=
  content.refs ++ content.scope.streamRefs lib ++
    content.annotations.filterMap fun a => a.appearance.bind (·.ref)

/-- Lets go of what loading made, and of the decoded data of its streams unless that is kept. -/
def dispose (keepDecoded : Bool) (p : Page) (m : Memory) : Page × Memory :=
  match p.content with
  | none => (p, m)
  | some content =>
    let m := if keepDecoded then m else m.evict (streamRefs lib content)
    ({ p with content := none }, content.scope.dispose m)

def textBlocks (p : Page) : Run (List TextBlock × Page) := do
  let (content, p) ← load lib options p
  match content.text with
  | some text => pure (text, p)
  | none =>
    let text :=
      match ← Content.interpret lib .text options [content.scope] .initial content.data with
      | .ok scene => scene.blocks.toList
      | .error _ => []
    pure (text, { p with content := some { content with text := some text } })

/-- The transform from a page's space to a device's. -/
def baseTransform (leaf : Leaf) (view : View) : Affine Float :=
  Frame.transform (leaf.boundary lib view.boundary) (leaf.rotation lib view.rotation) view.zoom

variable {σ : Type} (device : Device σ)

/-- Paints the appearance of an annotation, which is read first. -/
def paintAppearance (base : Affine Float) (scope : Scope) (a : Annotation) (s : σ) :
    Run (Except Error Unit × σ) := do
  match ← a.readForm lib with
  | none => pure (.ok (), s)
  | some form =>
    let placed := form.usedIn [scope] (.underCtm (a.appearanceMatrix form))
    let (painting, _) ← (HeldForm.ofForm placed options).painting lib device base
    pure (painting s)

/-- Paints the appearances of some annotations in order. None is read once a drawing has failed. -/
def paintAnnotations (base : Affine Float) (scope : Scope) :
    List Annotation → σ → Run (Except Error Unit × σ)
  | [], s => pure (.ok (), s)
  | a :: rest, s => do
    match ← paintAppearance lib options device base scope a s with
    | (.ok (), s) => paintAnnotations base scope rest s
    | (.error e, s) => pure (.error e, s)

/-- Painting a sheet with shapes on it: its colour first, then the shapes within its edge. -/
def sheetPainting (hints : PaintHints) (rect : Rect Float) (base : Affine Float)
    (shapes : Shapes) : Painting σ :=
  let background : Painting σ :=
    match hints.background with
    | some c => device.draw (.fill rect c) base
    | none => Painting.nothing
  background.andThen
    (Painting.andThen (device.draw (.clip rect) base)
      (Painting.shapes device base shapes.toList))

/-- Paints a page that is loaded and, where both the hints and the caller ask for them, its annotations
on top. -/
def paintLayers (hints : PaintHints) (view : View) (annotations : Bool) (leaf : Leaf)
    (content : PageContent) (s : σ) : Run (Except Error Unit × σ) := do
  let base := baseTransform lib leaf view
  match sheetPainting device hints (leaf.boundary lib view.boundary) base content.shapes s with
  | (.error e, s) => pure (.error e, s)
  | (.ok (), s) =>
    if annotations && hints.annotations then
      let visible := content.annotations.filter fun a => a.isVisible hints.target
      paintAnnotations lib options device base content.scope visible s
    else pure (.ok (), s)

/-- Paints a page between a saved and a restored state of the device. -/
def paint (hints : PaintHints) (view : View) (annotations : Bool) (s : σ) (p : Page) :
    Run ((Except Error Unit × σ) × Page) := do
  let (content, p) ← load lib options p
  let (result, s) ←
    paintLayers lib options device hints view annotations p.leaf content (device.save s)
  pure ((result, device.restore s), p)

end Page

end PdfScene
