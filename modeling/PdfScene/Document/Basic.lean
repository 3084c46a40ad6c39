import PdfScene.Document.Page
import PdfScene.Store.Scan

/-!
# Documents

A document is the library of its objects, its pages, and what is remembered of both. Opening one
reads every object and finds the pages; their content is left for later.
-/

set_option autoImplicit false

namespace PdfScene

structure Document where
  lib : Library
  options : Options
  memory : Memory
  pages : Array Page

namespace Document

/-- How many decoded streams are kept, unless it is said otherwise. -/
def defaultCapacity : Nat := 64

/-- Opens the document that a file holds. -/
def ofBytes (file : Bytes) (options : Options) (capacity : Nat) (inflate : Inflater := .none)
    (jpeg : JpegReader := .none) (order : Dict.Order := .asWritten) : Except Error Document := do
  let lib := { ← Scan.file inflate file with inflate, jpeg, order }
  match lib.catalog? with
  | none => .error (.missing .catalog)
  | some catalog =>
    match catalog.get? "Pages" with
    | none => .error (.missing .pageTree)
    | some root =>
      .ok
        { lib
          options
          memory := .initial lib capacity
          pages := ((PageTree.leaves lib root).map Page.ofLeaf).toArray }

def run {α : Type} (doc : Document) (r : Run α) : Except Panic (α × Document) :=
  match r doc.memory with
  | (.ok a, memory) => .ok (a, { doc with memory })
  | (.error p, _) => .error p

/-- The document with another page in a place. -/
def setPage (doc : Document) (i : Nat) (page : Page) : Document :=
  { doc with pages := doc.pages.setIfInBounds i page }

/-- Runs a computation on a page that may change it. After a panic there is no document any more. -/
def onPage {α : Type} (doc : Document) (i : Nat) (f : Page → Run (α × Page)) :
    Option (Except Panic (α × Document)) :=
  doc.pages[i]?.map fun page => do
    let ((a, page), doc) ← doc.run (f page)
    pure (a, doc.setPage i page)

def load (doc : Document) (i : Nat) : Option (Except Panic (PageContent × Document)) :=
  doc.onPage i (Page.load doc.lib doc.options)

/-- Loads a page unless that is cancelled before it begins; answers whether it did. -/
def loadUnlessCancelled (doc : Document) (i : Nat) (cancelled : Bool) :
    Except Error (Bool × Document) :=
  match doc.load i with
  | none => .error (.missing (.page i doc.pages.size))
  | some loaded =>
    if cancelled then .ok (false, doc)
    else (loaded.map fun (_, doc) => (true, doc)).mapError .panic

def textBlocks (doc : Document) (i : Nat) : Option (Except Panic (List TextBlock × Document)) :=
  doc.onPage i (Page.textBlocks doc.lib doc.options)

/-- Lets go of a page's content. -/
def dispose (doc : Document) (i : Nat) (keepDecoded : Bool) : Document :=
  match doc.pages[i]? with
  | none => doc
  | some page =>
    let (page, memory) := page.dispose doc.lib keepDecoded doc.memory
    { doc with memory }.setPage i page

/-- Lets go of the content and decoded data of every loaded page that is not to be kept, and counts
them. -/
def reduceMemory (doc : Document) (keep : List Nat) : Nat × Document :=
  (List.range doc.pages.size).foldl
    (fun (count, doc) i =>
      if keep.contains i || !(doc.pages[i]?.any Page.isLoaded) then (count, doc)
      else (count + 1, doc.dispose i false))
    (0, doc)

/-- Paints a page on a device, which is left as the painting leaves it. -/
def paint {σ : Type} (doc : Document) (i : Nat) (device : Device σ) (hints : PaintHints)
    (view : View) (annotations : Bool) (s : σ) :
    Option (Except Panic ((Except Error Unit × σ) × Document)) :=
  doc.onPage i (Page.paint doc.lib doc.options device hints view annotations s)

end Document

end PdfScene
