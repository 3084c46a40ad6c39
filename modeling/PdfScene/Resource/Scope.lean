import PdfScene.Graphics.Parameters
import PdfScene.Image.Basic
import PdfScene.Resource.Form

/-!
# Named resources

Content names its resources by category and name. A name is looked up in the innermost scope first
and then outward; the first scope in which it means something usable counts. Fonts are read once for
a scope, all else anew at every use.
-/

set_option autoImplicit false

namespace PdfScene

/-- An external object that content can paint. -/
inductive XObject where
  | image (i : Image)
  | form (f : Form)

namespace Scope

/-- The entry of a name in a category, as it stands, unless it is null. -/
def entry? (lib : Library) (s : Scope) (category name : String) : Option Obj :=
  ((lib.dict? s.dict category).bind (·.get? name)).bind fun o =>
    if (lib.resolve o).isNull then none else some o

def font? (lib : Library) (name : String) (s : Scope) : Run (Option Font) := do
  match ← Memory.findFont? s.id name with
  | some font => pure (some font)
  | none =>
    match (s.entry? lib "Font" name).bind fun o => (lib.resolve o).dict? with
    | none => pure none
    | some d =>
      let font ← Font.read lib name d
      Run.change (Memory.keepFont s.id name font)
      pure (some font)

def colorSpace? (lib : Library) (name : String) (s : Scope) : Run (Option ColorSpace) :=
  match s.entry? lib "ColorSpace" name with
  | some o => ColorSpace.read lib o
  | none => pure none

/-- The image or form of a name. Other external objects are not painted. -/
def xobject? (lib : Library) (name : String) (s : Scope) : Run (Option XObject) := do
  match (s.entry? lib "XObject" name).bind fun o => (lib.resolve o).stream? with
  | none => pure none
  | some stream =>
    match lib.name? stream.dict "Subtype" with
    | some "Image" =>
      match ← Image.read lib stream (fun space => s.colorSpace? lib space) with
      | .ok image => pure (some (.image image))
      | .error _ => pure none
    | some "Form" => pure (some (.form (← Form.read lib stream)))
    | _ => pure none

def image? (lib : Library) (name : String) (s : Scope) : Run (Option Image) := do
  match ← s.xobject? lib name with
  | some (.image image) => pure (some image)
  | _ => pure none

def form? (lib : Library) (name : String) (s : Scope) : Run (Option Form) := do
  match ← s.xobject? lib name with
  | some (.form form) => pure (some form)
  | _ => pure none

def pattern? (lib : Library) (name : String) (s : Scope) : Run (Option Pattern) :=
  match s.entry? lib "Pattern" name with
  | some o => Pattern.read lib o
  | none => pure none

def shading? (lib : Library) (name : String) (s : Scope) : Run (Option Shading) :=
  match s.entry? lib "Shading" name with
  | some o => Shading.read lib o
  | none => pure none

/-- The graphics state parameters of a name. -/
def parameters? (lib : Library) (name : String) (s : Scope) : Run (Option Parameters) :=
  match (s.entry? lib "ExtGState" name).bind fun o => (lib.resolve o).dict? with
  | some d => some <$> Parameters.read lib d
  | none => pure none

/-- The property list of a name. -/
def property? (lib : Library) (name : String) (s : Scope) : Option Dict :=
  (s.entry? lib "Properties" name).bind fun o => (lib.resolve o).dict?

/-- The references of the streams that a scope names. -/
def streamRefs (lib : Library) (s : Scope) : List ObjRef :=
  ["XObject", "Pattern", "Shading"].flatMap fun category =>
    ((lib.dict? s.dict category).getD []).filterMap fun (_, o) =>
      match o.ref? with
      | some r => some r
      | none => (lib.resolve o).stream?.bind (·.ref)

/-- The memory without the fonts of the scope. -/
def dispose (s : Scope) : Memory → Memory := Memory.forgetFonts s.id

end Scope

namespace Scopes

/-- The first answer that a scope gives, innermost first. -/
def find {α : Type} (lookup : Scope → Run (Option α)) : Scopes → Run (Option α)
  | [] => pure none
  | s :: outer => do
    match ← lookup s with
    | some a => pure (some a)
    | none => find lookup outer

variable (lib : Library) (name : String)

def font? (scopes : Scopes) : Run (Option Font) := scopes.find (Scope.font? lib name)

def xobject? (scopes : Scopes) : Run (Option XObject) := scopes.find (Scope.xobject? lib name)

def image? (scopes : Scopes) : Run (Option Image) := scopes.find (Scope.image? lib name)

def form? (scopes : Scopes) : Run (Option Form) := scopes.find (Scope.form? lib name)

def pattern? (scopes : Scopes) : Run (Option Pattern) := scopes.find (Scope.pattern? lib name)

def shading? (scopes : Scopes) : Run (Option Shading) := scopes.find (Scope.shading? lib name)

def parameters? (scopes : Scopes) : Run (Option Parameters) :=
  scopes.find (Scope.parameters? lib name)

def colorSpace? (scopes : Scopes) : Run (Option ColorSpace) :=
  scopes.find (Scope.colorSpace? lib name)

def property? (scopes : Scopes) : Option Dict := scopes.findSome? (Scope.property? lib name)

end Scopes

end PdfScene
