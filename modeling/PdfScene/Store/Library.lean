import Std.Data.HashMap
import PdfScene.Filter.Flate
import PdfScene.Filter.Jpeg
import PdfScene.Geometry.Rect
import PdfScene.Object.Basic

/-!
# Libraries — the objects of a document

A library holds the objects of a document by reference, and the trailer that names its root.
Entries of dictionaries are read through it, so that a reference anywhere stands for the object it
leads to. A reference that leads nowhere, or around in a circle, is null, and a null entry counts as
absent.
-/

set_option autoImplicit false

namespace PdfScene

deriving instance Hashable for ObjRef

/-- The objects of a document. -/
structure Library where
  objects : Std.HashMap ObjRef Obj
  trailer : Dict
  /-- The first number above those of all objects. -/
  nextId : UInt32
  /-- What is called on for the zlib data in the objects. -/
  inflate : Inflater
  /-- What is called on for the pictures among them. -/
  jpeg : JpegReader
  /-- How a dictionary is gone through. -/
  order : Dict.Order

namespace Library

/-- The library of no objects. -/
def empty : Library := ⟨∅, [], 1, .none, .none, .asWritten⟩

/-- The number after `n`, or `n` if there is none. -/
def succ (n : UInt32) : UInt32 := if n = 0xFFFFFFFF then n else n + 1

/-- The library in which `r` is `o`, in place of what it was. -/
def insert (lib : Library) (r : ObjRef) (o : Obj) : Library :=
  { lib with
    objects := lib.objects.insert r o
    nextId := if lib.nextId ≤ r.num then succ r.num else lib.nextId }

/-- The object defined under a reference. -/
def find? (lib : Library) (r : ObjRef) : Option Obj := lib.objects[r]?

def size (lib : Library) : Nat := lib.objects.size

/-- How often a reference may lead to another one. -/
def referenceLimit : Nat := 32

/-- Follows references, `room` of them at most. -/
def resolveWithin (lib : Library) : Nat → Obj → Obj
  | 0, _ => .null
  | room + 1, .ref r =>
    match lib.find? r with
    | some o => resolveWithin lib room o
    | none => .null
  | _ + 1, o => o

/-- The object that an object stands for. -/
def resolve (lib : Library) (o : Obj) : Obj := lib.resolveWithin referenceLimit o

/-- The object that an entry stands for, unless it is absent or null. -/
def get? (lib : Library) (d : Dict) (key : String) : Option Obj :=
  (d.get? key).bind fun entry =>
    let o := lib.resolve entry
    if o.isNull then none else some o

def dict? (lib : Library) (d : Dict) (key : String) : Option Dict := (lib.get? d key).bind Obj.dict?

def stream? (lib : Library) (d : Dict) (key : String) : Option StreamObj :=
  (lib.get? d key).bind Obj.stream?

def array? (lib : Library) (d : Dict) (key : String) : Option (List Obj) :=
  (lib.get? d key).bind Obj.array?

def num? (lib : Library) (d : Dict) (key : String) : Option Float := (lib.get? d key).bind Obj.num?

def int? (lib : Library) (d : Dict) (key : String) : Option Int := (lib.get? d key).bind Obj.int?

def bool? (lib : Library) (d : Dict) (key : String) : Option Bool :=
  (lib.get? d key).bind Obj.bool?

def name? (lib : Library) (d : Dict) (key : String) : Option String :=
  (lib.get? d key).bind Obj.name?

/-- The numbers of an array, any of which may be a reference. -/
def numbersOf? (lib : Library) (o : Obj) : Option (List Float) :=
  (lib.resolve o).array?.bind fun items => items.mapM fun item => (lib.resolve item).num?

def numbers? (lib : Library) (d : Dict) (key : String) : Option (List Float) :=
  (lib.get? d key).bind lib.numbersOf?

def rect? (lib : Library) (d : Dict) (key : String) : Option (Rect Float) :=
  (lib.numbers? d key).bind Rect.ofList?

def matrix? (lib : Library) (d : Dict) (key : String) : Option (Affine Float) :=
  (lib.numbers? d key).bind Affine.ofList?

/-- The first four numbers of an array, as they stand. -/
def four? (lib : Library) (d : Dict) (key : String) : Option (Float × Float × Float × Float) :=
  match lib.numbers? d key with
  | some (a :: b :: c :: d :: _) => some (a, b, c, d)
  | _ => none

/-- The resources that a page or form names. -/
def resources? (lib : Library) (d : Dict) : Option Dict := lib.dict? d "Resources"

def catalog? (lib : Library) : Option Dict := lib.dict? lib.trailer "Root"

end Library

end PdfScene
