import PdfScene.Bytes
import PdfScene.Number.Double

/-!
# Objects

The objects of a PDF file: atoms, arrays, dictionaries, streams and references to objects defined
elsewhere. A dictionary is a list of entries in which no key occurs twice (`Dict.insert` replaces);
a stream is a dictionary with data, which knows the reference it was defined under, if any.
-/

set_option autoImplicit false

namespace PdfScene

/-- The identity of an object defined in a file: its number and generation. -/
structure ObjRef where
  num : UInt32
  generation : UInt32
  deriving DecidableEq, Repr, Inhabited

inductive Obj where
  | null
  | bool (b : Bool)
  | num (x : Float)
  | str (bytes : Bytes)
  | hexStr (bytes : Bytes)
  | name (text : String)
  | array (items : List Obj)
  | dict (entries : List (String × Obj))
  | stream (entries : List (String × Obj)) (data : Bytes) (ref : Option ObjRef)
  | ref (r : ObjRef)
  /-- The end of the input, where an object was asked for. -/
  | eof
  /-- A word that is no part of an object. -/
  | word (text : String)
  deriving Inhabited

/-- The entries of a dictionary, each key once. -/
abbrev Dict := List (String × Obj)

namespace Dict

def get? (d : Dict) (key : String) : Option Obj := d.lookup key

def has (d : Dict) (key : String) : Bool := (d.get? key).isSome

/-- The dictionary with `value` under `key`, in place of what was there. -/
def insert (d : Dict) (key : String) (value : Obj) : Dict :=
  match d with
  | [] => [(key, value)]
  | (k, v) :: rest => if k = key then (key, value) :: rest else (k, v) :: insert rest key value

/-- The order in which the entries of a dictionary come up. -/
structure Order where
  entries : Dict → List (String × Obj)
  perm : ∀ d, (entries d).Perm d

/-- They come up as they are written. -/
def Order.asWritten : Order := ⟨id, fun _ => .rfl⟩

end Dict

/-- A stream: its dictionary, its data as stored, and the reference it is defined under. -/
structure StreamObj where
  dict : Dict
  data : Bytes
  ref : Option ObjRef
  deriving Inhabited

namespace Obj

def isNull : Obj → Bool
  | .null => true
  | _ => false

def num? : Obj → Option Float
  | .num x => some x
  | _ => none

/-- A number cut off to an integer, at most the greatest and at least the least of 64 bits. -/
def int? (o : Obj) : Option Int := o.num?.map floatToInt

def bool? : Obj → Option Bool
  | .bool b => some b
  | _ => none

def name? : Obj → Option String
  | .name s => some s
  | _ => none

/-- The bytes of a string of either kind. -/
def bytes? : Obj → Option Bytes
  | .str bs => some bs
  | .hexStr bs => some bs
  | _ => none

def array? : Obj → Option (List Obj)
  | .array items => some items
  | _ => none

/-- The entries of a dictionary or of a stream. -/
def dict? : Obj → Option Dict
  | .dict entries => some entries
  | .stream entries _ _ => some entries
  | _ => none

def stream? : Obj → Option StreamObj
  | .stream entries data defined => some ⟨entries, data, defined⟩
  | _ => none

def ref? : Obj → Option ObjRef
  | .ref r => some r
  | _ => none

/-- The numbers of an array that holds nothing else. -/
def numbers? (o : Obj) : Option (List Float) := o.array?.bind fun items => items.mapM num?

/-- A stream defined under `r`; any other object as it is. -/
def definedUnder (r : ObjRef) : Obj → Obj
  | .stream entries data _ => .stream entries data (some r)
  | o => o

end Obj

end PdfScene
