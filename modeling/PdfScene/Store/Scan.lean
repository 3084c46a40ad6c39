import PdfScene.Filter.Chain
import PdfScene.Object.Reader
import PdfScene.Store.Library

/-!
# Scanning a file

A file is loaded by looking for definitions `N G obj` wherever they stand; its cross-reference tables
are not used. Of two definitions under one reference the later counts, which is what an update at
the end of a file means. Objects packed in streams come after that, each unless its reference is
defined already.

What cannot be read is passed over, but a panic is not: it ends the scan wherever it comes up.

A place in the file is what stands before it, latest byte first, and what follows it.
-/

set_option autoImplicit false

namespace PdfScene.Scan

/-- A place in a file. -/
structure Place where
  before : Bytes
  after : Bytes

namespace Place

def start (file : Bytes) : Place := ⟨[], file⟩

/-- The place just after the next occurrence of a word. -/
def find? (word : Bytes) (before : Bytes) : Bytes → Option Place
  | [] => none
  | b :: rest =>
    if word.isPrefixOf (b :: rest) then
      some ⟨((b :: rest).take word.length).reverse ++ before, (b :: rest).drop word.length⟩
    else find? word (b :: before) rest

theorem find?_length_lt {word before after : Bytes} {q : Place} (hw : word ≠ [])
    (h : find? word before after = some q) : q.after.length < after.length := by
  fun_induction find? word before after with
  | case1 => simp at h
  | case2 =>
    simp only [Option.some.injEq] at h
    have : 0 < word.length := List.length_pos_iff.2 hw
    simp only [← h, List.length_drop, List.length_cons]
    omega
  | case3 _ _ _ _ ih =>
    have := ih h
    simp only [List.length_cons]
    omega

end Place

/-- The bytes up to a first one outside a class, and the rest; none if there are no such bytes. -/
def spanSome? (p : UInt8 → Bool) (bs : Bytes) : Option (Bytes × Bytes) :=
  let head := bs.takeWhile p
  if head.isEmpty then none else some (head, bs.dropWhile p)

/-- The bytes `N G` and blanks that a definition opens with, latest first, if they stand before its
keyword. -/
def header? (before : Bytes) : Option Bytes := do
  let (blanks, rest) ← spanSome? Byte.isBlank before
  let (generation, rest) ← spanSome? Byte.isDigit rest
  let (blanks', rest) ← spanSome? Byte.isBlank rest
  let (number, rest) ← spanSome? Byte.isDigit rest
  if rest.head?.all Byte.endsToken then some (blanks ++ generation ++ blanks' ++ number) else none

/-- The word of a definition. -/
def keyword : Bytes := Bytes.ofAscii "obj"

/-- The definition whose keyword ends at a place, as it starts with its number. -/
def definition? (p : Place) : Option Bytes :=
  if p.after.head?.all Byte.endsToken then
    (header? (p.before.drop keyword.length)).map fun header =>
      header.reverse ++ keyword ++ p.after
  else none

/-- What has been found. -/
structure Found where
  library : Library
  /-- Streams of packed objects, latest first. -/
  packed : List StreamObj

/-- The trailer with the entries of `d` that matter. -/
def mergeTrailer (trailer d : Dict) : Dict :=
  d.foldl (fun trailer (key, value) =>
    if key = "Root" ∨ key = "Info" ∨ key = "ID" ∨ key = "Size" then trailer.insert key value
    else trailer) trailer

def Found.add (f : Found) (r : ObjRef) (o : Obj) : Found :=
  let f : Found :=
    match o.stream? with
    | none => f
    | some s =>
      let kind := (s.dict.get? "Type").bind Obj.name?
      if kind = some "ObjStm" then { f with packed := s :: f.packed }
      else if kind = some "XRef" then
        { f with library := { f.library with trailer := mergeTrailer f.library.trailer s.dict } }
      else f
  { f with library := f.library.insert r o }

/-- Takes in the definitions from a place on. After one that can be read, the search goes on behind
its `endobj`. -/
def definitions (f : Found) (p : Place) : Except Panic Found :=
  match _h : Place.find? keyword p.before p.after with
  | none => .ok f
  | some q =>
    match (definition? q).map fun source => (Lookahead.ofBytes source).readDefinition.1 with
    | some (.ok (r, o)) =>
      match _he : Place.find? (Bytes.ofAscii "endobj") q.before q.after with
      | some q' => definitions (f.add r o) q'
      | none => definitions (f.add r o) q
    | some (.error (.panic x)) => .error x
    | _ => definitions f q
termination_by p.after.length
decreasing_by
  · exact Nat.lt_trans (Place.find?_length_lt (by decide) _he)
      (Place.find?_length_lt (by decide) _h)
  · exact Place.find?_length_lt (by decide) _h
  · exact Place.find?_length_lt (by decide) _h

/-- Takes in the trailer dictionaries from a place on. -/
def trailers (trailer : Dict) (p : Place) : Except Panic Dict :=
  match _h : Place.find? (Bytes.ofAscii "trailer") p.before p.after with
  | none => .ok trailer
  | some q =>
    match Obj.ofBytes q.after with
    | .ok (.dict d) => trailers (mergeTrailer trailer d) q
    | .error (.panic x) => .error x
    | _ => trailers trailer q
termination_by p.after.length
decreasing_by
  all_goals exact Place.find?_length_lt (by decide) _h

/-- The next entry of a header: the number of an object, and where it starts. Both are read before
either is looked at. -/
def readEntry (header : Lookahead) : Except Panic (Option (Float × Float)) × Lookahead :=
  let (number, header) := header.readObject
  let (offset, header) := header.readObject
  match number, offset with
  | .error (.panic x), _ => (.error x, header)
  | _, .error (.panic x) => (.error x, header)
  | .ok (.num number), .ok (.num offset) => (.ok (some (number, offset)), header)
  | _, _ => (.ok none, header)

/-- Takes in `count` packed objects: the header gives the number of each and where it starts, counted
from the first one. -/
def unpack (data : Bytes) (first : Nat) (lib : Library) (header : Lookahead) :
    Nat → Except Panic Library
  | 0 => .ok lib
  | count + 1 =>
    match readEntry header with
    | (.error x, _) => .error x
    | (.ok none, _) => .ok lib
    | (.ok (some (number, offset)), header) =>
      let r : ObjRef := ⟨number.toUInt32, 0⟩
      if (lib.find? r).isSome then unpack data first lib header count
      else
        match Obj.ofBytes (data.drop (Bytes.wrap (first + offset.toUInt64.toNat))) with
        | .ok o => unpack data first (lib.insert r o) header count
        | .error (.panic x) => .error x
        | .error _ => unpack data first lib header count

/-- Takes in a stream of packed objects. -/
def unpackStream (inflate : Inflater) (lib : Library) (s : StreamObj) : Except Error Library :=
  let count := ((s.dict.get? "N").bind Obj.int?).getD 0
  let first := ((s.dict.get? "First").bind Obj.int?).getD 0
  if count ≤ 0 ∨ first < 0 then .error (.object .noPackedHeader)
  else do
    let decoded ← s.decode inflate
    let header := Lookahead.ofBytes (decoded.data.take first.toNat)
    (unpack decoded.data first.toNat lib header count.toNat).mapError .panic

/-- Takes in streams of packed objects, those that can be taken in. -/
def unpackAll (inflate : Inflater) (lib : Library) : List StreamObj → Except Panic Library
  | [] => .ok lib
  | s :: rest =>
    match unpackStream inflate lib s with
    | .ok lib => unpackAll inflate lib rest
    | .error (.panic x) => .error x
    | .error _ => unpackAll inflate lib rest

/-- Order of references. -/
def refLt (r s : ObjRef) : Bool :=
  r.num < s.num || (r.num == s.num && r.generation < s.generation)

/-- The first catalog among the objects. -/
def firstCatalog? (lib : Library) : Option ObjRef :=
  lib.objects.fold (fun best r o =>
    if ((o.dict?.bind (·.get? "Type")).bind Obj.name?) = some "Catalog" then
      match best with
      | some b => if refLt r b then some r else best
      | none => some r
    else best) none

/-- All that is found in a file, in a library that may have no root. -/
def gather (inflate : Inflater) (bytes : Bytes) : Except Panic Library := do
  let found ← definitions ⟨.empty, []⟩ (.start bytes)
  let trailer ← trailers found.library.trailer (.start bytes)
  unpackAll inflate { found.library with trailer } found.packed.reverse

/-- A library with a root. If its trailer names none, the first catalog is the root. -/
def rooted (lib : Library) : Except Error Library :=
  if lib.catalog?.isSome then .ok lib
  else
    match firstCatalog? lib with
    | some r => .ok { lib with trailer := lib.trailer.insert "Root" (.ref r) }
    | none => .error (.missing .catalog)

/-- The objects of a file. -/
def file (inflate : Inflater) (bytes : Bytes) : Except Error Library := do
  rooted (← (gather inflate bytes).mapError .panic)

end PdfScene.Scan
