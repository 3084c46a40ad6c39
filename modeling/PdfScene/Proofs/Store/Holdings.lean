import PdfScene.Proofs.Object.Plain
import PdfScene.Store.Library

/-!
# Holdings — what a library and some dictionaries lead to

Everything that reading looks at is found by going from a dictionary to its entries, from an array
to its items and from a reference to the object it is defined as. `Library.Holds` is that, as a
relation: it says which objects can come up at all when the dictionaries one starts from are
`roots`.

It is what statements about remembered data need. A stream is remembered by the reference it
carries, so what is remembered can only be right if no two streams that can come up carry one
reference; `Library.Coherent` says so, and says nothing about objects that no name leads to.
-/

set_option autoImplicit false

namespace PdfScene

namespace Library

/-! ## The relation -/

/-- An object that comes up in a library, or in the dictionaries `roots`. -/
inductive Holds (lib : Library) (roots : List Dict) : Obj → Prop where
  /-- What content may spell out, and what no reference leads to. -/
  | plain {o : Obj} : o.Plain → Holds lib roots o
  | root {d : Dict} {e : String × Obj} : d ∈ roots → e ∈ d → Holds lib roots e.2
  | object {r : ObjRef} {o : Obj} : lib.find? r = some o → Holds lib roots o
  | item {items : List Obj} {o : Obj} :
      Holds lib roots (.array items) → o ∈ items → Holds lib roots o
  | entry {o : Obj} {d : Dict} {e : String × Obj} :
      Holds lib roots o → o.dict? = some d → e ∈ d → Holds lib roots e.2

/-- A dictionary whose entries all come up. -/
def HoldsDict (lib : Library) (roots : List Dict) (d : Dict) : Prop :=
  ∀ e ∈ d, lib.Holds roots e.2

/-- A stream that comes up. -/
def HoldsStream (lib : Library) (roots : List Dict) (s : StreamObj) : Prop :=
  lib.Holds roots s.toObj

/-- **One reference, one stream**: streams that come up under the same reference are the same. -/
def Coherent (lib : Library) (roots : List Dict) : Prop :=
  ∀ s t, lib.HoldsStream roots s → lib.HoldsStream roots t → s.ref ≠ none → s.ref = t.ref → s = t

/-! ## What a reference stands for -/

section

variable {lib : Library} {d : Dict} {key : String} {r : ObjRef} {o : Obj} (h : lib.find? r = some o)
include h

theorem resolve_ref (ho : o.ref? = none) : lib.resolve (.ref r) = o := by
  rw [resolve, referenceLimit, resolveWithin, h]
  cases o with
  | ref r' => cases ho
  | _ => rfl

theorem get?_ref (hd : d.get? key = some (.ref r)) (ho : o.ref? = none) (hnull : o.isNull = false) :
    lib.get? d key = some o := by
  rw [get?, hd, Option.bind_some, resolve_ref h ho]
  exact if_neg (Bool.eq_false_iff.mp hnull)

end

/-! ## Reading leads from what comes up to what comes up -/

theorem mem_of_get? {d : Dict} {key : String} {o : Obj} (h : d.get? key = some o) :
    (key, o) ∈ d := by
  obtain ⟨before, after, rfl, _⟩ := List.lookup_eq_some_iff.mp h
  simp

/-- Objects that reading through a library does not lead away from. -/
structure Closed (lib : Library) (P : Obj → Prop) : Prop where
  null : P .null
  object : ∀ {r o}, P (.ref r) → lib.find? r = some o → P o
  item : ∀ {items : List Obj} {o}, P (.array items) → o ∈ items → P o
  entry : ∀ {o d} {e : String × Obj}, P o → o.dict? = some d → e ∈ d → P e.2

namespace Closed

variable {lib : Library} {P : Obj → Prop} {o : Obj} {d : Dict} {key : String}

theorem items {items : List Obj} (hP : lib.Closed P) (h : P o) (hi : o.array? = some items) :
    ∀ x ∈ items, P x := by
  cases o with
  | array xs =>
    simp only [Obj.array?, Option.some.injEq] at hi
    subst hi
    exact fun _ hx => hP.item h hx
  | _ => simp [Obj.array?] at hi

theorem stream {s : StreamObj} (h : P o) (hs : o.stream? = some s) : P s.toObj := by
  obtain rfl := StreamObj.toObj_of_stream? hs
  exact h

theorem resolveWithin (room : Nat) (hP : lib.Closed P) (h : P o) : P (lib.resolveWithin room o) := by
  fun_induction lib.resolveWithin room o with
  | case1 => exact hP.null
  | case2 _ _ _ hfind ih => exact ih (hP.object h hfind)
  | case3 => exact hP.null
  | case4 => exact h

theorem resolve (hP : lib.Closed P) (h : P o) : P (lib.resolve o) :=
  hP.resolveWithin referenceLimit h

theorem get (hP : lib.Closed P) (h : ∀ e ∈ d, P e.2) (ho : lib.get? d key = some o) : P o := by
  unfold Library.get? at ho
  obtain ⟨e, he, ho⟩ := Option.bind_eq_some_iff.mp ho
  simp only [Option.ite_none_left_eq_some, Option.some.injEq] at ho
  exact ho.2 ▸ hP.resolve (h _ (mem_of_get? he))

theorem getDict {d' : Dict} (hP : lib.Closed P) (h : ∀ e ∈ d, P e.2)
    (hd : lib.dict? d key = some d') : ∀ e ∈ d', P e.2 := by
  obtain ⟨o, ho, hd⟩ := Option.bind_eq_some_iff.mp hd
  exact fun _ he => hP.entry (hP.get h ho) hd he

theorem getStream {s : StreamObj} (hP : lib.Closed P) (h : ∀ e ∈ d, P e.2)
    (hs : lib.stream? d key = some s) : P s.toObj := by
  obtain ⟨o, ho, hs⟩ := Option.bind_eq_some_iff.mp hs
  exact stream (hP.get h ho) hs

theorem getItems {items : List Obj} (hP : lib.Closed P) (h : ∀ e ∈ d, P e.2)
    (hi : lib.array? d key = some items) : ∀ x ∈ items, P x := by
  obtain ⟨o, ho, hi⟩ := Option.bind_eq_some_iff.mp hi
  exact hP.items (hP.get h ho) hi

end Closed

variable {lib : Library} {roots : List Dict}

theorem closed_holds (lib : Library) (roots : List Dict) : lib.Closed (lib.Holds roots) where
  null := .plain (.atom rfl rfl)
  object _ hfind := .object hfind
  item h hitem := .item h hitem
  entry h hd he := .entry h hd he

theorem HoldsDict.root {d : Dict} (h : d ∈ roots) : lib.HoldsDict roots d := fun _ he => .root h he

theorem Holds.dict {o : Obj} {d : Dict} (h : lib.Holds roots o) (hd : o.dict? = some d) :
    lib.HoldsDict roots d := fun _ he => .entry h hd he

theorem Holds.stream {o : Obj} {s : StreamObj} (h : lib.Holds roots o) (hs : o.stream? = some s) :
    lib.HoldsStream roots s := Closed.stream h hs

theorem Holds.items {o : Obj} {items : List Obj} (h : lib.Holds roots o)
    (hi : o.array? = some items) : ∀ x ∈ items, lib.Holds roots x :=
  (closed_holds lib roots).items h hi

theorem HoldsStream.dict {s : StreamObj} (h : lib.HoldsStream roots s) :
    lib.HoldsDict roots s.dict := Holds.dict (o := s.toObj) h rfl

theorem HoldsDict.entry {d : Dict} {key : String} {o : Obj} (h : lib.HoldsDict roots d)
    (ho : Dict.get? d key = some o) : lib.Holds roots o := h _ (mem_of_get? ho)

theorem Holds.resolve {o : Obj} (h : lib.Holds roots o) : lib.Holds roots (lib.resolve o) :=
  (closed_holds lib roots).resolve h

theorem HoldsDict.get {d : Dict} {key : String} {o : Obj} (h : lib.HoldsDict roots d)
    (ho : lib.get? d key = some o) : lib.Holds roots o := (closed_holds lib roots).get h ho

theorem HoldsDict.dict {d d' : Dict} {key : String} (h : lib.HoldsDict roots d)
    (hd : lib.dict? d key = some d') : lib.HoldsDict roots d' :=
  (closed_holds lib roots).getDict h hd

theorem HoldsDict.stream {d : Dict} {key : String} {s : StreamObj} (h : lib.HoldsDict roots d)
    (hs : lib.stream? d key = some s) : lib.HoldsStream roots s :=
  (closed_holds lib roots).getStream h hs

theorem HoldsDict.items {d : Dict} {key : String} {items : List Obj} (h : lib.HoldsDict roots d)
    (hi : lib.array? d key = some items) : ∀ x ∈ items, lib.Holds roots x :=
  (closed_holds lib roots).getItems h hi

end Library

end PdfScene
