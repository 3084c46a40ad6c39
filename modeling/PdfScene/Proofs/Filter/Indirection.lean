import Mathlib.Data.List.Forall2
import Mathlib.Data.Option.Basic
import PdfScene.Proofs.Store.Holdings
import PdfScene.Proofs.Store.Running

/-!
# References in the dictionary of a stream

Dictionaries are read through the library, so that a reference stands for the object it leads to.
Not so where a stream says how it is encoded: `decode` asks no library and takes the names of the
filters and their numbers from the dictionary as it stands. A reference there is no name, no
dictionary and no number, wherever it leads, and a stream decodes as it would with null in place of
every reference (`decode_withoutRefs`).

`MadeIndirect` is the change that ought not to be seen: parts of an object are put behind references
that lead to them. What comes of it is that filters and numbers are lost, and nothing else
(`filters_sublist`, `stated?`), so that a stream which has lost none decodes as before
(`decode_keeps`).
-/

set_option autoImplicit false

namespace PdfScene

/-! ## Null in place of references -/

theorem Obj.sizeOf_lt_of_mem {e : String × Obj} {d : Dict} (h : e ∈ d) : sizeOf e.2 < sizeOf d := by
  have hd := List.sizeOf_lt_of_mem h
  obtain ⟨key, o⟩ := e
  simp only [Prod.mk.sizeOf_spec] at hd
  show sizeOf o < _
  omega

/-- The object with null in place of every reference in it. -/
def Obj.withoutRefs : Obj → Obj
  | .ref _ => .null
  | .array items => .array (items.map withoutRefs)
  | .dict entries => .dict (entries.map fun e => (e.1, e.2.withoutRefs))
  | .stream entries data r => .stream (entries.map fun e => (e.1, e.2.withoutRefs)) data r
  | o => o
termination_by o => sizeOf o
decreasing_by
  · have := List.sizeOf_lt_of_mem ‹_›
    simp only [array.sizeOf_spec]
    omega
  · have := sizeOf_lt_of_mem ‹_›
    simp only [dict.sizeOf_spec]
    omega
  · have := sizeOf_lt_of_mem ‹_›
    simp only [stream.sizeOf_spec]
    omega

def Dict.withoutRefs (d : Dict) : Dict := d.map fun e => (e.1, e.2.withoutRefs)

def StreamObj.withoutRefs (s : StreamObj) : StreamObj := { s with dict := s.dict.withoutRefs }

@[simp]
theorem Dict.get?_withoutRefs (d : Dict) (key : String) :
    d.withoutRefs.get? key = (d.get? key).map Obj.withoutRefs := by
  induction d with
  | nil => rfl
  | cons entry rest ih =>
    obtain ⟨k, o⟩ := entry
    simp only [Dict.get?, Dict.withoutRefs, List.map_cons, List.lookup_cons] at ih ⊢
    split <;> simp_all

namespace Obj

/-! A reference is read as null is, whatever is asked for. -/

@[simp]
theorem name?_withoutRefs (o : Obj) : o.withoutRefs.name? = o.name? := by
  cases o <;> simp only [withoutRefs] <;> rfl

@[simp]
theorem int?_withoutRefs (o : Obj) : o.withoutRefs.int? = o.int? := by
  cases o <;> simp only [withoutRefs] <;> rfl

@[simp]
theorem dict?_withoutRefs (o : Obj) : o.withoutRefs.dict? = o.dict?.map Dict.withoutRefs := by
  cases o <;> simp only [withoutRefs] <;> rfl

end Obj

/-! ## What decoding depends on -/

/-- The number that parameters state under a key. -/
def Predictor.stated? (parms : Option Dict) (key : String) : Option Int :=
  (parms.bind (·.get? key)).bind Obj.int?

/-- Parameters are told apart by the numbers they state. To have none is to state no number. -/
theorem Predictor.undo_congr {parms parms' : Option Dict}
    (h : stated? parms = stated? parms') : undo parms = undo parms' := by
  funext data
  have key (k : String) : stated? parms k = stated? parms' k := congrFun h k
  cases parms with
  | none =>
    cases parms' with
    | none => rfl
    | some d' =>
      have hnone : (d'.get? "Predictor").bind Obj.int? = none := (key "Predictor").symm
      simp [undo, Params.ofDict, hnone]
  | some d =>
    cases parms' with
    | none =>
      have hnone : (d.get? "Predictor").bind Obj.int? = none := key "Predictor"
      simp [undo, Params.ofDict, hnone]
    | some d' =>
      have hd (k : String) : (d.get? k).bind Obj.int? = (d'.get? k).bind Obj.int? := key k
      have hparams : Params.ofDict d = Params.ofDict d' := by simp only [Params.ofDict, hd]
      simp only [undo, hparams]

theorem applyFilter_congr {parms parms' : Option Dict}
    (h : Predictor.stated? parms = Predictor.stated? parms') (inflate : Inflater) (filter : String)
    (data : Bytes) : applyFilter inflate filter parms data = applyFilter inflate filter parms' data := by
  have hearly : (parms.bind (·.get? "EarlyChange")).bind Obj.int? =
      (parms'.bind (·.get? "EarlyChange")).bind Obj.int? := congrFun h "EarlyChange"
  simp only [applyFilter, hearly, Predictor.undo_congr h]

namespace StreamObj

theorem decodeChain_congr {parms parms' : List (Option Dict)}
    (h : parms.map Predictor.stated? = parms'.map Predictor.stated?) (inflate : Inflater)
    (filters : List String) (data : Bytes) :
    decodeChain inflate data (filters.zip parms) = decodeChain inflate data (filters.zip parms') := by
  induction filters generalizing parms parms' data with
  | nil => rfl
  | cons filter filters ih =>
    match parms, parms', h with
    | [], [], _ => rfl
    | p :: ps, p' :: ps', h =>
      obtain ⟨hhead, htail⟩ := List.cons_eq_cons.mp h
      simp only [List.zip_cons_cons, decodeChain, applyFilter_congr hhead, ih htail]

/-- Two streams with the same data decode alike if they name the same filters and state the same
numbers for each. -/
theorem decode_congr {s s' : StreamObj} (hdata : s.data = s'.data)
    (hfilters : s.filters = s'.filters)
    (hparms : s.parms.map Predictor.stated? = s'.parms.map Predictor.stated?)
    (inflate : Inflater) : s.decode inflate = s'.decode inflate := by
  unfold decode
  rw [hdata, hfilters]
  exact decodeChain_congr hparms inflate _ _

/-! ## Decoding without references -/

theorem filters_withoutRefs (s : StreamObj) : s.withoutRefs.filters = s.filters := by
  simp only [filters, withoutRefs, Dict.get?_withoutRefs]
  rcases s.dict.get? "Filter" with _ | o
  · rfl
  · cases o <;> simp [Obj.withoutRefs, List.filterMap_map]

theorem parms_withoutRefs (s : StreamObj) :
    s.withoutRefs.parms = s.parms.map (Option.map Dict.withoutRefs) := by
  simp only [parms, filters_withoutRefs]
  simp only [withoutRefs, Dict.get?_withoutRefs]
  rcases s.dict.get? "DecodeParms" with _ | o
  · simp
  · cases o <;> simp [Obj.withoutRefs, Option.bind_map, Option.map_bind, Function.comp_def,
      apply_ite, Dict.withoutRefs]

theorem stated?_withoutRefs (parms : Option Dict) :
    Predictor.stated? (parms.map Dict.withoutRefs) = Predictor.stated? parms := by
  funext key
  cases parms with
  | none => rfl
  | some d => simp [Predictor.stated?, Option.bind_map]

/-- Decoding sees no reference: it takes null for it. -/
theorem decode_withoutRefs (s : StreamObj) (inflate : Inflater) :
    s.withoutRefs.decode inflate = s.decode inflate := by
  have hdata : s.withoutRefs.data = s.data := rfl
  have hparms : s.withoutRefs.parms.map Predictor.stated? = s.parms.map Predictor.stated? := by
    rw [parms_withoutRefs, List.map_map]
    exact List.map_congr_left fun parms _ => stated?_withoutRefs parms
  exact decode_congr hdata s.filters_withoutRefs hparms inflate

end StreamObj

/-! ## Parts behind references -/

/-- The second object is the first with parts of it, or all of it, behind references that lead to
them in a library. -/
inductive Obj.MadeIndirect (lib : Library) : Obj → Obj → Prop where
  | same (o : Obj) : MadeIndirect lib o o
  | ref {o o' : Obj} {r : ObjRef} :
      MadeIndirect lib o o' → lib.resolve (.ref r) = o' → MadeIndirect lib o (.ref r)
  | array {items items' : List Obj} :
      List.Forall₂ (MadeIndirect lib) items items' → MadeIndirect lib (.array items) (.array items')
  | dict {d d' : Dict} :
      (∀ key, Option.Rel (MadeIndirect lib) (d.get? key) (d'.get? key)) →
      MadeIndirect lib (.dict d) (.dict d')

/-- The second stream is the first with parts of its dictionary behind references. -/
structure StreamObj.MadeIndirect (lib : Library) (s s' : StreamObj) : Prop where
  entry : ∀ key, Option.Rel (Obj.MadeIndirect lib) (s.dict.get? key) (s'.dict.get? key)
  data : s'.data = s.data
  ref : s'.ref = s.ref

namespace Obj.MadeIndirect

variable {lib : Library} {o o' : Obj}

/-- A name stays as it is, or is behind a reference and none. -/
theorem name? (h : MadeIndirect lib o o') : o'.name? = none ∨ o'.name? = o.name? := by
  cases h with
  | same => exact .inr rfl
  | _ => exact .inl rfl

/-- A number likewise. -/
theorem int? (h : MadeIndirect lib o o') : o'.int? = none ∨ o'.int? = o.int? := by
  cases h with
  | same => exact .inr rfl
  | _ => exact .inl rfl

/-- A dictionary stays with some of its numbers, or is behind a reference and none. -/
theorem stated? (h : MadeIndirect lib o o') (key : String) :
    Predictor.stated? o'.dict? key = none ∨
      Predictor.stated? o'.dict? key = Predictor.stated? o.dict? key := by
  cases h with
  | same => exact .inr rfl
  | ref => exact .inl rfl
  | array => exact .inl rfl
  | @dict d d' hentries =>
    have hentry := hentries key
    simp only [Predictor.stated?, Obj.dict?, Option.bind_some]
    generalize d.get? key = entry, d'.get? key = entry' at hentry
    cases hentry with
    | none => exact .inl rfl
    | some hentry => exact hentry.int?

theorem getElem? {items items' : List Obj} (h : List.Forall₂ (MadeIndirect lib) items items')
    (i : Nat) : Option.Rel (MadeIndirect lib) items[i]? items'[i]? := by
  induction h generalizing i with
  | nil => exact .none
  | cons hhead _ ih =>
    cases i with
    | zero => exact .some hhead
    | succ i => exact ih i

theorem names_sublist {items items' : List Obj}
    (h : List.Forall₂ (MadeIndirect lib) items items') :
    (items'.filterMap Obj.name?).Sublist (items.filterMap Obj.name?) := by
  induction h with
  | nil => exact .refl _
  | @cons o o' items items' hhead _ ih =>
    rcases hhead.name? with hname | hname
    · rw [List.filterMap_cons_none hname, List.filterMap_cons]
      split
      · exact ih
      · exact ih.cons _
    · simp only [List.filterMap_cons, hname]
      split
      · exact ih
      · exact ih.cons_cons _

end Obj.MadeIndirect

/-- Filters may be lost, but those that are left are in order and none is new. -/
theorem StreamObj.MadeIndirect.filters_sublist {lib : Library} {s s' : StreamObj}
    (h : s.MadeIndirect lib s') : s'.filters.Sublist s.filters := by
  have hentry := h.entry "Filter"
  unfold StreamObj.filters
  generalize s.dict.get? "Filter" = entry, s'.dict.get? "Filter" = entry' at hentry
  cases hentry with
  | none => exact .refl _
  | some hentry =>
    cases hentry with
    | same => exact .refl _
    | ref => exact List.nil_sublist _
    | array hitems => exact Obj.MadeIndirect.names_sublist hitems
    | dict => exact .refl _

/-- The parameters at a place of the list of filters. -/
theorem StreamObj.getElem?_parms (s : StreamObj) {i : Nat} (hi : i < s.filters.length) :
    s.parms[i]? = some (match s.dict.get? "DecodeParms" with
      | some (.dict d) => if i = 0 then some d else none
      | some (.array items) => (items[i]?).bind Obj.dict?
      | _ => none) := by
  unfold parms
  rcases s.dict.get? "DecodeParms" with _ | o
  · simp [hi]
  · cases o <;> simp [hi]

theorem StreamObj.length_parms (s : StreamObj) : s.parms.length = s.filters.length := by
  unfold parms
  rcases s.dict.get? "DecodeParms" with _ | o
  · simp
  · cases o <;> simp

/-- The number that the parameters of one filter state under a key. -/
def StreamObj.stated? (s : StreamObj) (i : Nat) (key : String) : Option Int :=
  Predictor.stated? s.parms[i]?.join key

/-- Numbers may be lost from the parameters, but those that are left are as they were. -/
theorem StreamObj.MadeIndirect.stated? {lib : Library} {s s' : StreamObj}
    (h : s.MadeIndirect lib s') {i : Nat} (hi : i < s'.filters.length) (key : String) :
    s'.stated? i key = none ∨ s'.stated? i key = s.stated? i key := by
  unfold StreamObj.stated?
  have hi' : i < s.filters.length := Nat.lt_of_lt_of_le hi h.filters_sublist.length_le
  rw [s.getElem?_parms hi', s'.getElem?_parms hi]
  have hentry := h.entry "DecodeParms"
  generalize s.dict.get? "DecodeParms" = entry, s'.dict.get? "DecodeParms" = entry' at hentry
  cases hentry with
  | none => exact .inl rfl
  | some hentry =>
    cases hentry with
    | same => exact .inr rfl
    | ref => exact .inl rfl
    | @array items items' hitems =>
      have hitem := Obj.MadeIndirect.getElem? hitems i
      simp only [Option.join_some]
      generalize items[i]? = item, items'[i]? = item' at hitem
      cases hitem with
      | none => exact .inl rfl
      | some hitem => exact hitem.stated? key
    | @dict d d' hentries =>
      by_cases h0 : i = 0
      · subst h0
        exact (Obj.MadeIndirect.dict hentries).stated? key
      · simp [h0]

/-- The second stream has lost nothing of what the first says of its encoding, neither a filter nor a
number of its parameters. -/
structure StreamObj.Keeps (s s' : StreamObj) : Prop where
  filters : s'.filters.length = s.filters.length
  stated : ∀ i < s.filters.length, ∀ key, s'.stated? i key = none → s.stated? i key = none

/-- What has lost nothing decodes as before, wherever the other parts of it have gone. -/
theorem StreamObj.MadeIndirect.decode_keeps {lib : Library} {s s' : StreamObj}
    (h : s.MadeIndirect lib s') (hkeeps : s.Keeps s') (inflate : Inflater) :
    s'.decode inflate = s.decode inflate := by
  have hfilters : s'.filters = s.filters := h.filters_sublist.eq_of_length hkeeps.filters
  have hstated : ∀ i < s'.parms.length, s'.stated? i = s.stated? i := by
    intro i hi
    rw [s'.length_parms] at hi
    funext key
    rcases h.stated? hi key with hnone | heq
    · rw [hnone, hkeeps.stated i (hfilters ▸ hi) key hnone]
    · exact heq
  apply decode_congr h.data hfilters
  apply List.ext_getElem
  · simp only [List.length_map, length_parms, hfilters]
  · intro i hi hi'
    rw [List.length_map] at hi hi'
    have hparms := hstated i hi
    unfold StreamObj.stated? at hparms
    simpa [hi, hi'] using hparms

namespace Memory

/-- Two streams under one reference come to the same from a memory if they decode alike or if the
memory has them decoded, and in no other case. -/
theorem decode_eq_iff {s s' : StreamObj} (href : s'.ref = s.ref) (inflate : Inflater) (m : Memory) :
    Memory.decode inflate s' m = Memory.decode inflate s m ↔
      (∃ r d, s.ref = some r ∧ m.cache.find? r = some d) ∨ s'.decode inflate = s.decode inflate := by
  constructor
  · intro h
    have hfst := congrArg Prod.fst h
    simp only [Memory.decode, href] at hfst
    rcases hs : s.ref with _ | r
    · rw [hs] at hfst
      exact .inr (Panic.apart_inj.mp hfst)
    · rcases hfound : m.cache.find? r with _ | d
      · right
        apply Panic.apart_inj.mp
        simp only [hs, hfound] at hfst
        revert hfst
        rcases s'.decode inflate with e' | d' <;> rcases s.decode inflate with e | d <;> exact id
      · exact .inl ⟨r, d, rfl, hfound⟩
  · rintro (⟨r, d, hr, hfound⟩ | h)
    · simp only [Memory.decode, href, hr, hfound]
    · simp only [Memory.decode, href, h]

/-- A stream of which parts have been put behind references decodes as before only if its data is
remembered, or if it decodes as before with null in place of those parts. So it does if what is behind
references is neither a filter nor a number that its parameters state. -/
theorem decode_madeIndirect_iff {lib : Library} {s s' : StreamObj} (h : s.MadeIndirect lib s')
    (inflate : Inflater) (m : Memory) :
    (Memory.decode inflate s' m = Memory.decode inflate s m ↔
      (∃ r d, s.ref = some r ∧ m.cache.find? r = some d) ∨
        s'.withoutRefs.decode inflate = s.decode inflate) ∧
      (s.Keeps s' → Memory.decode inflate s' m = Memory.decode inflate s m) := by
  constructor
  · rw [decode_eq_iff h.ref, StreamObj.decode_withoutRefs]
  · intro hkeeps
    exact (decode_eq_iff h.ref inflate m).mpr (.inr (h.decode_keeps hkeeps inflate))

/-- Two hex digits, with what is said of their filter and their length. -/
def hexStream (filter length : Obj) : StreamObj :=
  ⟨[("Filter", filter), ("Length", length)], Bytes.ofAscii "41>", some ⟨6, 0⟩⟩

/-- The name of the filter as object 5, and the length as object 7. -/
def hexLibrary : Library :=
  (Library.empty.insert ⟨5, 0⟩ (.name "ASCIIHexDecode")).insert ⟨7, 0⟩ (.num 3)

theorem resolve_hexLibrary :
    hexLibrary.resolve (.ref ⟨5, 0⟩) = .name "ASCIIHexDecode" ∧
      hexLibrary.resolve (.ref ⟨7, 0⟩) = .num 3 := by
  constructor <;>
    exact Library.resolve_ref
      (by simp [hexLibrary, Library.find?, Library.insert, Std.HashMap.getElem_insert]) rfl

theorem madeIndirect_hexStream {filter filter' length length' : Obj}
    (hfilter : filter.MadeIndirect hexLibrary filter')
    (hlength : length.MadeIndirect hexLibrary length') :
    (hexStream filter length).MadeIndirect hexLibrary (hexStream filter' length') := by
  refine ⟨fun key => ?_, rfl, rfl⟩
  simp only [hexStream, Dict.get?, List.lookup_cons, List.lookup_nil]
  split
  · exact .some hfilter
  · split
    · exact .some hlength
    · exact .none

/-- Behind a reference the name of the filter is lost, and the digits are taken for the data. The
length may be behind one: no filter asks for it. -/
theorem decode_madeIndirect_hex :
    let stream := hexStream (.name "ASCIIHexDecode") (.num 3)
    let misread := hexStream (.ref ⟨5, 0⟩) (.num 3)
    let kept := hexStream (.name "ASCIIHexDecode") (.ref ⟨7, 0⟩)
    stream.MadeIndirect hexLibrary misread ∧
      Memory.decode .none misread (.initial hexLibrary 1) ≠
        Memory.decode .none stream (.initial hexLibrary 1) ∧
      stream.MadeIndirect hexLibrary kept ∧ stream.Keeps kept ∧
      Memory.decode .none kept (.initial hexLibrary 1) =
        Memory.decode .none stream (.initial hexLibrary 1) := by
  intro stream misread kept
  have hmisread : stream.MadeIndirect hexLibrary misread :=
    madeIndirect_hexStream (.ref (.same _) resolve_hexLibrary.1) (.same _)
  have hkept : stream.MadeIndirect hexLibrary kept :=
    madeIndirect_hexStream (.same _) (.ref (.same _) resolve_hexLibrary.2)
  have hkeeps : stream.Keeps kept := ⟨rfl, fun _ _ _ h => h⟩
  refine ⟨hmisread, fun heq => ?_, hkept, hkeeps,
    (decode_madeIndirect_iff hkept .none (.initial hexLibrary 1)).2 hkeeps⟩
  rcases (decode_madeIndirect_iff hmisread .none _).1.mp heq with ⟨r, d, _, hfound⟩ | hdecode
  · cases hfound
  · rw [StreamObj.decode_withoutRefs] at hdecode
    have hraw : misread.decode .none = .ok ⟨Bytes.ofAscii "41>", none⟩ := rfl
    have hdecoded : stream.decode .none = .ok ⟨[0x41], none⟩ := rfl
    rw [hraw, hdecoded] at hdecode
    have hdata : Bytes.ofAscii "41>" = [0x41] := by injection hdecode with h; injection h
    exact absurd hdata (by decide)

end Memory

end PdfScene
