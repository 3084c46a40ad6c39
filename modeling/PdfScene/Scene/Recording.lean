import PdfScene.Scene.Device

/-!
# Recordings

A device that paints nothing and keeps a record of what it was asked for, in its own space.
-/

set_option autoImplicit false

namespace PdfScene

/-- One thing that was asked for. -/
inductive Record where
  | save
  | restore
  | clip (corners : List Point)
  | fill (corners : List Point) (c : Color)
  | path (fill stroke : Bool) (extent : Option (Rect.Extent Float))
  | text (text : String) (origin : Point)
  | image (id : UInt32) (hasPixels : Bool) (transform : Affine Float)
  | shading (kind : Int)

/-- Everything that was asked for, and how many states are saved. -/
structure Recording where
  records : Array Record
  depth : Nat

namespace Record

def ofDrawing (d : Drawing) (base : Affine Float) : Record :=
  match d with
  | .clip r => clip (r.corners.map base.apply)
  | .fill r c => fill (r.corners.map base.apply) c
  | .shape s =>
    let toDevice := s.state.ctm * base
    match s.mark with
    | .path p rule stroked => path rule.isSome stroked (p.transformed toDevice).extent?
    | .text _ string _ => text string (base.apply s.state.textOrigin)
    | .image i pixels _ => image i.id pixels.isSome toDevice
    | .shading s => shading s.kind

end Record

namespace Recording

/-- Nothing has been asked for. -/
def empty : Recording := ⟨#[], 0⟩

/-- The recording with one more record. -/
def push (r : Recording) (record : Record) : Recording := { r with records := r.records.push record }

/-- The device that records. It never fails. -/
def device : Device Recording where
  save := fun r => { r.push .save with depth := r.depth + 1 }
  restore := fun r => { r.push .restore with depth := r.depth - 1 }
  draw := fun d base r => (.ok (), r.push (.ofDrawing d base))

end Recording

end PdfScene
