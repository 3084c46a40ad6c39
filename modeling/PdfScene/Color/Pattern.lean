import PdfScene.Color.Read

/-!
# Patterns and shadings

A shading is a transition of colours, a pattern a tile or a shading to paint with. Only what says how
to lay them out is read; functions and meshes stay in their dictionaries for the device.
-/

set_option autoImplicit false

namespace PdfScene

/-- Four numbers as they stand in a file. -/
abbrev Four := Float × Float × Float × Float

structure Shading where
  /-- 1 by function, 2 along a line, 3 between circles, 4 to 7 by mesh. -/
  kind : Int
  space : ColorSpace
  bbox : Option Four
  background : Option (List Float)
  antiAlias : Bool
  dict : Dict
  stream : Option StreamObj

def Shading.read (lib : Library) (o : Obj) : Run (Option Shading) := do
  let o := lib.resolve o
  match o.dict? with
  | none => pure none
  | some d =>
    match lib.int? d "ShadingType", lib.get? d "ColorSpace" with
    | some kind, some space =>
      if kind < 1 ∨ 7 < kind then pure none
      else
        match ← ColorSpace.read lib space with
        | none => pure none
        | some space =>
          pure (some
            { kind
              space
              bbox := lib.four? d "BBox"
              background := lib.numbers? d "Background"
              antiAlias := (lib.bool? d "AntiAlias").getD false
              dict := d
              stream := o.stream? })
    | _, _ => pure none

/-- A tile that is laid side by side. -/
structure Tiling where
  ref : Option ObjRef
  /-- Whether the tile brings its own colours. -/
  coloured : Bool
  kind : Int
  bbox : Four
  xStep : Float
  yStep : Float
  matrix : Affine Float
  stream : StreamObj

/-- What is painted with in place of a colour. -/
inductive Pattern where
  | tiling (t : Tiling)
  | shading (s : Shading) (matrix : Affine Float) (gstate : Option Dict)

namespace Pattern

/-- The tile of a stream. Steps that are not stated are the extent of its box. -/
def tilingOf? (lib : Library) (ref : Option ObjRef) (matrix : Affine Float) (s : StreamObj) :
    Option Pattern :=
  (lib.four? s.dict "BBox").map fun bbox =>
    tiling
      { ref := ref.or s.ref
        coloured := lib.int? s.dict "PaintType" != some 2
        kind := (lib.int? s.dict "TilingType").getD 1
        bbox
        xStep := (lib.num? s.dict "XStep").getD (bbox.2.2.1 - bbox.1)
        yStep := (lib.num? s.dict "YStep").getD (bbox.2.2.2 - bbox.2.1)
        matrix
        stream := s }

def read (lib : Library) (o : Obj) : Run (Option Pattern) := do
  let resolved := lib.resolve o
  match resolved.dict? with
  | none => pure none
  | some d =>
    let matrix := (lib.matrix? d "Matrix").getD .identity
    match lib.int? d "PatternType" with
    | some 1 => pure (resolved.stream?.bind (tilingOf? lib o.ref? matrix))
    | some 2 =>
      match d.get? "Shading" with
      | none => pure none
      | some s =>
        match ← Shading.read lib s with
        | none => pure none
        | some s => pure (some (shading s matrix (lib.dict? d "ExtGState")))
    | _ => pure none

end Pattern

end PdfScene
