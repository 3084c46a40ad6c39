import Std.Data.HashSet
import PdfScene.Document.Role

/-!
# The page tree

A document keeps its pages as the leaves of a tree, so that pages can inherit entries from the nodes
above them. `PageTree.leaves` lists the leaves from left to right. A reference is followed once: where
it leads to the same node again, nothing is there.

Only references to nodes are remembered, and a node may stand in the list of its parent's kids
without one. Such nodes can lead around in a circle, since the list itself may be referred to from
inside. A walk that comes to a circle of them has no end, so `PageTree.walk` is a partial function.
-/

set_option autoImplicit false

namespace PdfScene

/-- A page where it stands in the tree. -/
structure Leaf where
  index : Nat
  ref : Option ObjRef
  dict : Dict
  /-- The nodes above it, nearest first. -/
  ancestors : List Dict

namespace PageTree

/-- The pages found so far, and the references followed. -/
structure Walk where
  visited : Std.HashSet ObjRef
  leaves : Array Leaf

/-- Nothing has been found, and no reference followed. -/
def Walk.start : Walk := ⟨∅, #[]⟩

/-- Follows the reference that an object is, unless it has been followed before. -/
def Walk.enter? (w : Walk) (o : Obj) : Option Walk :=
  match o.ref? with
  | none => some w
  | some r =>
    if w.visited.contains r then none else some { w with visited := w.visited.insert r }

def Walk.push (w : Walk) (ref : Option ObjRef) (dict : Dict) (ancestors : List Dict) : Walk :=
  { w with leaves := w.leaves.push ⟨w.leaves.size, ref, dict, ancestors⟩ }

/-- What an object is in a page tree. -/
inductive Node where
  | page (d : Dict)
  /-- A node with kids. -/
  | tree (d : Dict)
  | other

def Node.ofObj (lib : Library) (o : Obj) : Node :=
  match Role.ofObj lib o, (lib.resolve o).dict? with
  | .page, some d => .page d
  | .pageTree, some d => .tree d
  | _, _ => .other

/-- The kids of a node. -/
def kids (lib : Library) (d : Dict) : List Obj := (lib.array? d "Kids").getD []

/-- Walks the tree below some nodes. A walk without an end is `none`. -/
def walk (lib : Library) (ancestors : List Dict) (w : Walk) (o : Obj) : Option Walk :=
  match w.enter? o with
  | none => some w
  | some w =>
    match Node.ofObj lib o with
    | .page d => some (w.push o.ref? d ancestors)
    | .tree d =>
      -- a partial function would keep the syntax of a call that is written out with its place
      (kids lib d).foldlM (by apply walk; exact lib; exact d :: ancestors) w
    | .other => some w
partial_fixpoint

/-- The pages of the tree under a root, if the walk that finds them has an end. -/
def leaves (lib : Library) (root : Obj) : List Leaf :=
  match walk lib [] .start root with
  | some w => w.leaves.toList
  | none => []

end PageTree

end PdfScene
