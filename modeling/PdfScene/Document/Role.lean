import PdfScene.Store.Library

/-!
# Roles

What an object of a document is used as, told by its type or, where that is missing, by the entries
that only one use has.
-/

set_option autoImplicit false

namespace PdfScene

/-- What an object is used as. -/
inductive Role where
  | page
  /-- A node of the page tree that is no page. -/
  | pageTree
  | form
  | image
  | annotation
  /-- A stream that is neither form nor image. -/
  | stream
  | dictionary
  | other
  deriving DecidableEq, Repr

namespace Role

def name : Role → String
  | page => "page"
  | pageTree => "page tree"
  | form => "form"
  | image => "image"
  | annotation => "annotation"
  | stream => "stream"
  | dictionary => "dictionary"
  | other => "object"

/-- The role of a dictionary that states no type: nodes of the page tree have kids, annotations a
subtype and a rectangle, and pages have content and a parent. -/
def ofUntyped (d : Dict) : Role :=
  if d.has "Kids" then pageTree
  else if d.has "Subtype" && d.has "Rect" then annotation
  else if d.has "Contents" && d.has "Parent" then page
  else dictionary

def ofDict (lib : Library) (d : Dict) : Role :=
  match lib.name? d "Type" with
  | some "Page" => page
  | some "Pages" => pageTree
  | some "Annot" => annotation
  | some _ => dictionary
  | none => ofUntyped d

def ofStream (lib : Library) (d : Dict) : Role :=
  match lib.name? d "Subtype" with
  | some "Form" => form
  | some "Image" => image
  | _ => stream

def ofObj (lib : Library) (o : Obj) : Role :=
  match lib.resolve o with
  | .stream d _ _ => ofStream lib d
  | .dict d => ofDict lib d
  | _ => other

end Role

end PdfScene
