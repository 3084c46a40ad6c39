import PdfScene.Proofs.Filter.Indirection

/-!
# Filters and their parameters

A stream may state a list of filters and a list of parameters. The parameters of a filter are meant to
be those at its own place, but the two lists are not read place by place: what is no name is dropped
from the filters first, and the names that are left take the parameters one after the other. So a name
has the parameters at the place that counts the names in front of it (`filters_zip_parms`), which is its
own place if nothing was dropped there.

How a list of filters is then undone is stated without the recursion of `decodeChain`: all filters up to
the first image codec, each on what the one before it gave (`decodeChain_eq`).
-/

set_option autoImplicit false

namespace PdfScene.StreamObj

/-! ## Undoing filters -/

/-- Undoes the filters in front of the first image codec, one after the other, and hands over what
that gives together with the codec. -/
def undoUpToCodec (inflate : Inflater) (data : Bytes) (chain : List (String × Option Dict)) :
    Except Error Decoded := do
  let undone ← (chain.takeWhile fun f => (ImageCodec.ofName? f.1).isNone).foldlM
    (fun data f => applyFilter inflate f.1 f.2 data) data
  return ⟨undone, chain.findSome? fun f => ImageCodec.ofName? f.1⟩

theorem decodeChain_eq (inflate : Inflater) (data : Bytes) (chain : List (String × Option Dict)) :
    decodeChain inflate data chain = undoUpToCodec inflate data chain := by
  induction chain generalizing data with
  | nil => rfl
  | cons f chain ih =>
    obtain ⟨filter, parms⟩ := f
    unfold decodeChain undoUpToCodec
    cases hcodec : ImageCodec.ofName? filter with
    | some codec =>
      simp only [List.takeWhile_cons, List.findSome?_cons, hcodec, Option.isNone_some]
      rfl
    | none =>
      have hrest : (fun data => decodeChain inflate data chain) =
          fun data => undoUpToCodec inflate data chain := funext ih
      simp [hcodec, hrest, undoUpToCodec]

/-- Two chains undo the same if they name the same filters and state the same numbers for each. -/
theorem undoUpToCodec_congr {chain chain' : List (String × Option Dict)}
    (h : chain.map (fun f => (f.1, Predictor.stated? f.2)) =
      chain'.map fun f => (f.1, Predictor.stated? f.2)) (inflate : Inflater) (data : Bytes) :
    undoUpToCodec inflate data chain = undoUpToCodec inflate data chain' := by
  have hfilters : chain.map Prod.fst = chain'.map Prod.fst := by
    simpa [Function.comp_def] using congrArg (List.map Prod.fst) h
  have hparms : (chain.map Prod.snd).map Predictor.stated? =
      (chain'.map Prod.snd).map Predictor.stated? := by
    simpa [Function.comp_def] using congrArg (List.map Prod.snd) h
  have hzip (c : List (String × Option Dict)) : (c.map Prod.fst).zip (c.map Prod.snd) = c :=
    (List.zip_of_prod rfl rfl).symm
  rw [← decodeChain_eq, ← decodeChain_eq, ← hzip chain, ← hzip chain', hfilters]
  exact decodeChain_congr hparms inflate _ data

/-! ## Which parameters a name has -/

/-- The parameters at a place of a list, if a dictionary stands there. -/
def parmsAt (parms : List Obj) (i : Nat) : Option Dict := parms[i]?.bind Obj.dict?

/-- How many names stand in front of a place. -/
def namesBefore (items : List Obj) (i : Nat) : Nat := ((items.take i).filterMap Obj.name?).length

/-- The names of a list, each with what `parmsOf` gives for its place. -/
def named (parmsOf : Nat → Option Dict) (items : List Obj) : List (String × Option Dict) :=
  items.zipIdx.filterMap fun e => e.1.name?.map fun name => (name, parmsOf e.2)

/-- The names of the rest of a list take the parameters behind those that the names before took. -/
theorem zipIdx_names (parmsOf : Nat → Option Dict) (before items : List Obj) :
    ((items.filterMap Obj.name?).zipIdx (before.filterMap Obj.name?).length).map
        (fun e => (e.1, parmsOf e.2)) =
      (items.zipIdx before.length).filterMap fun e =>
        e.1.name?.map fun name => (name, parmsOf (namesBefore (before ++ items) e.2)) := by
  induction items generalizing before with
  | nil => rfl
  | cons o items ih =>
    have hhere : namesBefore (before ++ o :: items) before.length =
        (before.filterMap Obj.name?).length := by
      simp [namesBefore]
    have hrest := ih (before ++ [o])
    simp only [List.append_assoc, List.singleton_append, List.length_append, List.length_singleton]
      at hrest
    cases hname : o.name? with
    | none =>
      simp only [List.filterMap_append, List.filterMap_cons, List.filterMap_nil, hname,
        List.append_nil] at hrest
      simp only [List.filterMap_cons, List.zipIdx_cons, hname, Option.map_none]
      exact hrest
    | some name =>
      simp only [List.filterMap_append, List.filterMap_cons, List.filterMap_nil, hname,
        List.length_append, List.length_singleton] at hrest
      simp only [List.filterMap_cons, List.zipIdx_cons, hname, Option.map_some, List.map_cons, hhere,
        hrest]

/-- In lists of filters and of parameters, a name has the parameters at the place that counts the
names in front of it. -/
theorem filters_zip_parms {s : StreamObj} {items parms : List Obj}
    (hfilter : s.dict.get? "Filter" = some (.array items))
    (hparms : s.dict.get? "DecodeParms" = some (.array parms)) :
    s.filters.zip s.parms = named (fun i => parmsAt parms (namesBefore items i)) items := by
  have hfilters : s.filters = items.filterMap Obj.name? := by
    simp [filters, hfilter]
  have hlist : s.parms = (List.range (items.filterMap Obj.name?).length).map (parmsAt parms) := by
    simp only [StreamObj.parms, hparms, hfilters]
    rfl
  have hzip := zipIdx_names (parmsAt parms) [] items
  simp only [List.filterMap_nil, List.length_nil, List.nil_append] at hzip
  rw [hfilters, hlist, named, ← hzip, List.zipIdx_eq_zip_range', List.range_eq_range']
  apply List.ext_getElem <;> simp

theorem named_cons (parmsOf : Nat → Option Dict) (o : Obj) (items : List Obj) :
    named parmsOf (o :: items) =
      (o.name?.map fun name => (name, parmsOf 0)).toList ++ named (fun i => parmsOf (i + 1)) items := by
  rw [named, List.zipIdx_cons', List.filterMap_cons, List.filterMap_map]
  cases o.name? with
  | none => rfl
  | some name => rfl

/-- Two ways to give the names parameters come to the same, as far as `view` sees, if they do so at
each place of a name. -/
theorem map_named_eq_iff {α : Type} (view : Option Dict → α) (parmsOf parmsOf' : Nat → Option Dict)
    (items : List Obj) :
    (named parmsOf items).map (fun f => (f.1, view f.2)) =
        (named parmsOf' items).map (fun f => (f.1, view f.2)) ↔
      ∀ i name, items[i]?.bind Obj.name? = some name → view (parmsOf i) = view (parmsOf' i) := by
  induction items generalizing parmsOf parmsOf' with
  | nil => simp [named]
  | cons o items ih =>
    rw [named_cons, named_cons, ← Nat.and_forall_add_one]
    cases hname : o.name? with
    | none => simp [hname, ih]
    | some name => simp [hname, ih]

/-- Nothing is dropped in front of a place if only names stand there. -/
theorem namesBefore_eq {items : List Obj} {i : Nat} (hi : i < items.length)
    (h : ∀ o ∈ items.take i, o.name? ≠ none) : namesBefore items i = i := by
  have hlength : ((items.take i).filterMap Obj.name?).length = (items.take i).length := by
    rw [List.length_filterMap_eq_countP, List.countP_eq_length]
    intro o ho
    exact Option.isSome_iff_ne_none.mpr (h o ho)
  rw [namesBefore, hlength, List.length_take, Nat.min_eq_left (Nat.le_of_lt hi)]

/-- **With which parameters a list of filters is undone.** If the filters and the parameters stand in
lists, the names among the filters are undone in order up to the first image codec, and each has the
parameters at the place that counts the names in front of it. Every name has those at its own place if
and only if the parameters at these two places are the same for each name. The stream decodes as with
the parameters in their own places if in front of each name only names stand, or the parameters at its
two places state the same numbers. -/
theorem decode_listed (inflate : Inflater) {s : StreamObj} {items parms : List Obj}
    (hfilter : s.dict.get? "Filter" = some (.array items))
    (hparms : s.dict.get? "DecodeParms" = some (.array parms)) :
    s.decode inflate =
        undoUpToCodec inflate s.data (named (fun i => parmsAt parms (namesBefore items i)) items) ∧
      (named (fun i => parmsAt parms (namesBefore items i)) items = named (parmsAt parms) items ↔
        ∀ i name, items[i]?.bind Obj.name? = some name →
          parmsAt parms (namesBefore items i) = parmsAt parms i) ∧
      ((∀ i name, items[i]?.bind Obj.name? = some name →
          (∀ o ∈ items.take i, o.name? ≠ none) ∨
            Predictor.stated? (parmsAt parms (namesBefore items i)) =
              Predictor.stated? (parmsAt parms i)) →
        s.decode inflate = undoUpToCodec inflate s.data (named (parmsAt parms) items)) := by
  have hdecode : s.decode inflate =
      undoUpToCodec inflate s.data (named (fun i => parmsAt parms (namesBefore items i)) items) := by
    rw [decode, decodeChain_eq, filters_zip_parms hfilter hparms]
  refine ⟨hdecode, ?_, ?_⟩
  · simpa using map_named_eq_iff id (fun i => parmsAt parms (namesBefore items i)) (parmsAt parms) items
  · intro h
    rw [hdecode]
    apply undoUpToCodec_congr
    rw [map_named_eq_iff]
    intro i name hname
    rcases h i name hname with hnames | hstated
    · obtain ⟨o, ho, -⟩ := Option.bind_eq_some_iff.mp hname
      obtain ⟨hi, -⟩ := List.getElem?_eq_some_iff.mp ho
      rw [namesBefore_eq hi hnames]
    · exact hstated

/-- Parameters for the second of two filters. -/
def secondParms : List Obj := [.null, .dict [("Predictor", .num 2), ("Columns", .num 2)]]

/-- Two samples, the second as its difference from the first. In the list of filters a null stands in
front of the one that there is. -/
def shifted : StreamObj where
  dict := [("Filter", .array [.null, .name "LZWDecode"]), ("DecodeParms", .array secondParms)]
  data := [0x80, 0x00, 0x40, 0x30, 0x10]
  ref := none

/-- The name takes the place of the null, and the difference is not undone. -/
theorem decode_listed_shifted :
    shifted.dict.get? "Filter" = some (.array [.null, .name "LZWDecode"]) ∧
      shifted.dict.get? "DecodeParms" = some (.array secondParms) ∧
      (shifted.decode .none).toOption.map Decoded.data = some [1, 1] ∧
      (undoUpToCodec .none shifted.data
        (named (parmsAt secondParms) [.null, .name "LZWDecode"])).toOption.map Decoded.data =
          some [1, 2] := by
  have hfilter : shifted.dict.get? "Filter" = some (.array [.null, .name "LZWDecode"]) := rfl
  have hparms : shifted.dict.get? "DecodeParms" = some (.array secondParms) := rfl
  refine ⟨hfilter, hparms, ?_, by decide +kernel⟩
  rw [(decode_listed .none hfilter hparms).1]
  decide +kernel

end PdfScene.StreamObj
