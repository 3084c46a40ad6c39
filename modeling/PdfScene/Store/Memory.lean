import PdfScene.Filter.Chain
import PdfScene.Font.Basic
import PdfScene.Store.Library

/-!
# Memory — what is remembered between calls

Reading a document is a function of its objects, but some results are kept so that they need not be
made again: the decoded data of a limited number of streams, and the fonts of each resource scope.
Objects without a number of their own are given one. `Memory` holds all of this and nothing else
does, so a computation that remembers is a function from one memory to the next. What it remembers
stays remembered when it fails, as an error is an answer like another. A panic is none: it ends the
computation, whatever there is still to do.
-/

set_option autoImplicit false

namespace PdfScene

/-- Decoded streams by reference, the one used last first. -/
structure DecodeCache where
  /-- How many are kept; zero counts as one. -/
  capacity : Nat
  entries : List (ObjRef × Decoded)

namespace DecodeCache

def empty (capacity : Nat) : DecodeCache := ⟨capacity, []⟩

def size (c : DecodeCache) : Nat := c.entries.length

def limit (c : DecodeCache) : Nat := max 1 c.capacity

def find? (c : DecodeCache) (r : ObjRef) : Option Decoded := c.entries.lookup r

/-- The cache without the entries of `r`. -/
def erase (c : DecodeCache) (r : ObjRef) : DecodeCache :=
  { c with entries := c.entries.filter fun entry => entry.1 != r }

/-- The cache in which `r` is the one used last, and those used longest ago make room. -/
def use (c : DecodeCache) (r : ObjRef) (d : Decoded) : DecodeCache :=
  { c with entries := ((r, d) :: (c.erase r).entries).take c.limit }

end DecodeCache

structure Memory where
  /-- The next number for an object that has none. -/
  nextId : UInt32
  /-- The next number for a resource scope. -/
  nextScope : Nat
  cache : DecodeCache
  /-- Fonts by the scope and the name they were found under. -/
  fonts : List ((Nat × String) × Font)

/-- A computation that remembers, and that a panic ends. -/
abbrev Run := ExceptT Panic (StateM Memory)

namespace Run

/-- What is there without a memory. -/
def of {α : Type} (r : Except Panic α) : Run α := fun m => (r, m)

/-- What only changes the memory. -/
def change (f : Memory → Memory) : Run Unit := fun m => (.ok (), f m)

end Run

namespace Memory

/-- The memory at the start of work on a library. -/
def initial (lib : Library) (capacity : Nat) : Memory := ⟨lib.nextId, 0, .empty capacity, []⟩

/-- A number no object has. -/
def issueId : Run UInt32 := fun m => (.ok m.nextId, { m with nextId := m.nextId + 1 })

/-- A number no scope has. -/
def issueScope : Run Nat := fun m => (.ok m.nextScope, { m with nextScope := m.nextScope + 1 })

/-- The decoded data of a stream. Faults are not remembered, nor are streams without a reference. -/
def decode (inflate : Inflater) (s : StreamObj) : Run (Except Error Decoded) := fun m =>
  match s.ref with
  | none => (Panic.apart (s.decode inflate), m)
  | some r =>
    match m.cache.find? r with
    | some d => (.ok (.ok d), { m with cache := m.cache.use r d })
    | none =>
      match s.decode inflate with
      | .ok d => (.ok (.ok d), { m with cache := m.cache.use r d })
      | .error e => (Panic.apart (.error e), m)

/-- The memory without the decoded data of some streams. -/
def evict (refs : List ObjRef) (m : Memory) : Memory :=
  { m with cache := refs.foldl DecodeCache.erase m.cache }

/-- The font remembered for a name in a scope. -/
def findFont? (scope : Nat) (name : String) : Run (Option Font) := fun m =>
  (.ok (m.fonts.lookup (scope, name)), m)

/-- The memory with a font for a name in a scope. -/
def keepFont (scope : Nat) (name : String) (f : Font) (m : Memory) : Memory :=
  { m with fonts := ((scope, name), f) :: m.fonts }

/-- How many fonts are remembered for a scope. -/
def fontCount (m : Memory) (scope : Nat) : Nat :=
  (m.fonts.filter fun entry => entry.1.1 == scope).length

/-- The memory without the fonts of a scope. -/
def forgetFonts (scope : Nat) (m : Memory) : Memory :=
  { m with fonts := m.fonts.filter fun entry => entry.1.1 != scope }

end Memory

end PdfScene
