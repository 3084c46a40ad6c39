import PdfScene.Proofs.Content.Operands
import PdfScene.Proofs.Object.Writing

/-!
# Operands are read back as objects are

Content is read by a reader of its own, which is fed one token at a time and knows no references. What
it makes of the tokens of an object is nevertheless the same (`Obj.Writes.read_back`), as long as the
object does not nest deeper than it allows.
-/

set_option autoImplicit false

namespace PdfScene

/-- An object in which containers stand in one another at most `n` deep. -/
inductive Obj.NestedWithin : Nat → Obj → Prop where
  | atom {n : Nat} {o : Obj} (hdict : o.dict? = none) (harray : o.array? = none) : NestedWithin n o
  | array {n : Nat} {items : List Obj} (h : ∀ o ∈ items, NestedWithin n o) :
      NestedWithin (n + 1) (.array items)
  | dict {n : Nat} {d : Dict} (h : ∀ e ∈ d, NestedWithin n e.2) : NestedWithin (n + 1) (.dict d)

namespace Operation

open Lookahead (Delivers)

variable {acc : Array Operation} {r r' : Reader} {bs bs' rest : Bytes} {t : Token} {ts : List Token}
  {o : Obj} {n : Nat}

/-- The innermost container waits for a value, or none is open. -/
def Reader.AtValue (r : Reader) : Prop :=
  match r.stack with
  | .dict _ _ none :: _ => False
  | _ => True

theorem Reader.feed_atValue (hr : r.AtValue) (ht : t.opensValue = true) :
    r.feed t = .more (r.operand t) := by
  obtain ⟨operands, stack⟩ := r
  match stack with
  | [] => cases t <;> first | rfl | cases ht
  | .array items :: outer => cases t <;> first | rfl | cases ht
  | .dict image entries (some key) :: outer =>
    have hends : Reader.ends image t = false := by
      cases t <;> first | rfl | cases ht
    simp [Reader.feed, hends]
  | .dict image entries none :: outer => exact hr.elim

theorem readFrom_error {fault : TokenFault} (h : Token.scan bs = (.error fault, rest)) :
    readFrom acc r bs = readFrom acc r rest := by
  rw [readFrom]
  split <;> rename_i hscan <;> rw [h] at hscan <;> cases hscan
  rfl

theorem readFrom_ok (h : Token.scan bs = (.ok t, rest)) (hmore : t ≠ .eof)
    (hfeed : r.feed t = .more r') : readFrom acc r bs = readFrom acc r' rest := by
  rw [readFrom]
  split <;> rename_i hscan <;> rw [h] at hscan <;> cases hscan
  rw [dif_neg (fun heof => hmore (by cases t <;> first | rfl | cases heof)), hfeed]

/-- A token is fed to the reader, whatever malformed ones stand before it. -/
theorem readFrom_nextToken (h : Lookahead.nextToken bs = (t, bs')) (hmore : t ≠ .eof)
    (hfeed : r.feed t = .more r') : readFrom acc r bs = readFrom acc r' bs' := by
  fun_induction Lookahead.nextToken bs with
  | case1 bs u rest hscan =>
    cases h
    exact readFrom_ok hscan hmore hfeed
  | case2 bs fault rest hscan ih => rw [readFrom_error hscan, ih h]

/-- The tokens are read as an operand, under at most `room` more containers than are open. -/
def FedAs (room : Nat) (ts : List Token) (o : Obj) : Prop :=
  ∀ (r : Reader) {acc : Array Operation} {bs rest : Bytes}, r.AtValue →
    r.stack.length + room ≤ Reader.nestingLimit → Delivers bs ts rest →
      readFrom acc r bs = readFrom acc (r.deliver o) rest

theorem fedAs_atom (h : o.token? = some t) (room : Nat) : FedAs room [t] o := by
  intro r acc bs rest hr _ hts
  have hopens : t.opensValue = true := by
    cases o <;> cases h <;> rfl
  cases hts with
  | cons hnext hmore hbs' =>
    obtain rfl := hbs'.nil_eq
    rw [readFrom_nextToken hnext hmore (Reader.feed_atValue hr hopens)]
    cases o <;> cases h <;> rfl

section Items

variable {items : List (Obj × List Token)} {value : Obj × List Token → Obj}

theorem fed_items (h : ∀ p ∈ items, FedAs n p.2 (value p)) {operands done : List Obj}
    {stack : List Frame} (hroom : stack.length + 1 + n ≤ Reader.nestingLimit)
    (hts : Delivers bs (items.flatMap Prod.snd ++ [.arrayEnd]) rest) :
    readFrom acc ⟨operands, .array done :: stack⟩ bs =
      readFrom acc (Reader.deliver ⟨operands, stack⟩ (.array (done.reverse ++ items.map value)))
        rest := by
  induction items generalizing bs done with
  | nil =>
    cases hts with
    | cons hnext hmore hbs' =>
      obtain rfl := hbs'.nil_eq
      rw [readFrom_nextToken hnext hmore rfl, List.map_nil, List.append_nil]
  | cons p items ih =>
    rw [List.forall_mem_cons] at h
    rw [List.flatMap_cons, List.append_assoc] at hts
    obtain ⟨mid, hp, hitems⟩ := hts.split
    rw [h.1 ⟨operands, .array done :: stack⟩ trivial hroom hp, Reader.deliver, ih h.2 hitems]
    simp

theorem fedAs_array (h : ∀ p ∈ items, FedAs n p.2 (value p)) :
    FedAs (n + 1) (.arrayStart :: (items.flatMap Prod.snd ++ [.arrayEnd])) (.array (items.map value)) := by
  intro r acc bs rest hr hroom hts
  have hopen : r.stack.length < Reader.nestingLimit := by omega
  cases hts with
  | cons hnext hmore hitems =>
    rw [readFrom_nextToken hnext hmore (Reader.feed_atValue hr rfl), Reader.operand, if_pos hopen,
      fed_items h (by omega) hitems]
    rfl

end Items

section Entries

variable {entries : List (String × Obj × List Token)} {value : String × Obj × List Token → Obj}

theorem fed_entries (h : ∀ e ∈ entries, FedAs n e.2.2 (value e)) {d : Dict}
    (hdistinct : (d.map Prod.fst ++ entries.map Prod.fst).Nodup) {operands : List Obj}
    {stack : List Frame} (hroom : stack.length + 1 + n ≤ Reader.nestingLimit)
    (hts : Delivers bs (entries.flatMap Dict.entryTokens ++ [.dictEnd]) rest) :
    readFrom acc ⟨operands, .dict false d none :: stack⟩ bs =
      readFrom acc (Reader.deliver ⟨operands, stack⟩ (.dict (d ++ entries.map fun e => (e.1, value e))))
        rest := by
  induction entries generalizing bs d with
  | nil =>
    cases hts with
    | cons hnext hmore hbs' =>
      obtain rfl := hbs'.nil_eq
      rw [readFrom_nextToken hnext hmore rfl, List.map_nil, List.append_nil]
  | cons e entries ih =>
    rw [List.forall_mem_cons] at h
    rw [Dict.entries_tokens] at hts
    cases hts with
    | cons hnext hmore hvalue =>
      obtain ⟨mid, he, hentries⟩ := hvalue.split
      have hfresh : e.1 ∉ d.map Prod.fst := fun hmem =>
        List.disjoint_of_nodup_append hdistinct hmem (by simp)
      have hdeliver : Reader.deliver ⟨operands, .dict false d (some e.1) :: stack⟩ (value e) =
          ⟨operands, .dict false (d ++ [(e.1, value e)]) none :: stack⟩ := by
        simp [Reader.deliver, Dict.insert_eq_append hfresh]
      rw [readFrom_nextToken hnext hmore rfl,
        h.1 ⟨operands, .dict false d (some e.1) :: stack⟩ trivial hroom he, hdeliver,
        ih h.2 ?_ hentries]
      · simp
      · simpa using hdistinct

theorem fedAs_dict (h : ∀ e ∈ entries, FedAs n e.2.2 (value e))
    (hdistinct : (entries.map Prod.fst).Nodup) :
    FedAs (n + 1) (.dictStart :: (entries.flatMap Dict.entryTokens ++ [.dictEnd]))
      (.dict (entries.map fun e => (e.1, value e))) := by
  intro r acc bs rest hr hroom hts
  have hopen : r.stack.length < Reader.nestingLimit := by omega
  cases hts with
  | cons hnext hmore hentries =>
    rw [readFrom_nextToken hnext hmore (Reader.feed_atValue hr rfl), Reader.operand, if_pos hopen,
      fed_entries (d := []) h hdistinct (by omega) hentries]
    rfl

end Entries

end Operation

/-! ## Both readers -/

theorem Obj.NestedWithin.items {n : Nat} {items : List Obj} (h : (Obj.array items).NestedWithin n) :
    ∃ m, n = m + 1 ∧ ∀ o ∈ items, o.NestedWithin m := by
  cases h with
  | atom _ harray => cases harray
  | array hitems => exact ⟨_, rfl, hitems⟩

theorem Obj.NestedWithin.entries {n : Nat} {d : Dict} (h : (Obj.dict d).NestedWithin n) :
    ∃ m, n = m + 1 ∧ ∀ e ∈ d, e.2.NestedWithin m := by
  cases h with
  | atom hdict _ => cases hdict
  | dict hentries => exact ⟨_, rfl, hentries⟩

open Lookahead Operation

/-- What is written is one object to both readers, the one that is written up to the order of entries. -/
theorem Obj.Writes.exists_reading {o : Obj} {ts : List Token} (h : o.Writes ts) :
    ∃ o' : Obj, o'.Same o ∧ ReadsAs ts o' ∧ ∀ n, o.Spelled → o.NestedWithin n → FedAs n ts o' := by
  induction h with
  | @atom o t h => exact ⟨o, .refl o, readsAs_atom h, fun n _ _ => fedAs_atom h n⟩
  | ref hn hg => exact ⟨_, .refl _, readsAs_ref hn hg, fun n hspelled _ => by cases hspelled⟩
  | @array items _ ih =>
    choose! value hsame hreads hfed using ih
    refine ⟨.array (items.map value), .items hsame, readsAs_array hreads, fun n hspelled hnested => ?_⟩
    cases hspelled with
    | array hspelled =>
    obtain ⟨m, rfl, hinner⟩ := hnested.items
    refine fedAs_array fun p hp => ?_
    have hmem : p.1 ∈ items.map Prod.fst := List.mem_map_of_mem hp
    exact hfed p hp m (hspelled _ hmem) (hinner _ hmem)
  | @dict d entries hdistinct horder _ ih =>
    choose! value hsame hreads hfed using ih
    have hkeys : (entries.map Prod.fst).Nodup := by
      have hnodup := (horder.map Prod.fst).nodup_iff.mp hdistinct
      simpa [Function.comp_def] using hnodup
    refine ⟨.dict (entries.map fun e => (e.1, value e)), .entries hdistinct horder hsame,
      readsAs_dict hreads hkeys, fun n hspelled hnested => ?_⟩
    cases hspelled with
    | dict hspelled =>
    obtain ⟨m, rfl, hinner⟩ := hnested.entries
    refine fedAs_dict (fun e he => ?_) hkeys
    have hmem : (e.1, e.2.1) ∈ d := horder.mem_iff.mpr (List.mem_map.mpr ⟨e, he, rfl⟩)
    exact hfed e he m (hspelled _ hmem) (hinner _ hmem)

/-- **Both readers read back what is written**, and take exactly its tokens: the reader of objects
wherever nothing behind them makes them part of another object, and the reader of content if there is
no reference among them and containers nest no deeper than its limit. -/
theorem Obj.Writes.read_back {o : Obj} {ts : List Token} {bs rest : Bytes} (h : o.Writes ts)
    (hts : Delivers bs ts rest) :
    ∃ o' : Obj, o'.Same o ∧
      (o.EndsBefore (.ofBytes rest) → (Lookahead.ofBytes bs).readObject = (.ok o', .ofBytes rest)) ∧
      (o.Spelled → o.NestedWithin Reader.nestingLimit → ∀ acc operands,
        readFrom acc ⟨operands, []⟩ bs = readFrom acc ⟨o' :: operands, []⟩ rest) := by
  obtain ⟨o', hsame, hreads, hfed⟩ := h.exists_reading
  refine ⟨o', hsame, fun hrest => ?_, fun hspelled hnested acc operands => ?_⟩
  · have hrun := hreads.run [] trivial hts (hsame.endsBefore hrest)
    rw [Lookahead.readObject, hrun]
    rfl
  · exact hfed _ hspelled hnested ⟨operands, []⟩ trivial (by simp) hts

/-- An array and a string, the key of the string written last. -/
theorem Obj.Writes.read_back_reordered :
    ∃ o' : Obj, o'.Same (.dict [("A", .str []), ("B", .array [.null])]) ∧
      (Lookahead.ofBytes (Bytes.ofAscii "<</B[null]/A()>> f")).readObject =
        (.ok o', .ofBytes (Bytes.ofAscii " f")) ∧
      readFrom #[] .empty (Bytes.ofAscii "<</B[null]/A()>> f") =
        readFrom #[] ⟨[o'], []⟩ (Bytes.ofAscii " f") := by
  have hitems : ∀ p ∈ [(Obj.null, [Token.null])], p.1.Writes p.2 := by
    simpa using .atom rfl
  have hentries : ∀ e ∈ [("B", Obj.array [.null], [Token.arrayStart, .null, .arrayEnd]),
      ("A", .str [], [.str []])], e.2.1.Writes e.2.2 := by
    simpa using ⟨.array hitems, .atom rfl⟩
  have hwrites : (Obj.dict [("A", .str []), ("B", .array [.null])]).Writes _ :=
    .dict (by simp [Dict.Distinct]) (.swap _ _ _) hentries
  have h₁ : nextToken (Bytes.ofAscii "<</B[null]/A()>> f") =
    (.dictStart, Bytes.ofAscii "/B[null]/A()>> f") := by cbv
  have h₂ : nextToken (Bytes.ofAscii "/B[null]/A()>> f") =
    (.name "B", Bytes.ofAscii "[null]/A()>> f") := by cbv
  have h₃ : nextToken (Bytes.ofAscii "[null]/A()>> f") =
    (.arrayStart, Bytes.ofAscii "null]/A()>> f") := by cbv
  have h₄ : nextToken (Bytes.ofAscii "null]/A()>> f") = (.null, Bytes.ofAscii "]/A()>> f") := by cbv
  have h₅ : nextToken (Bytes.ofAscii "]/A()>> f") = (.arrayEnd, Bytes.ofAscii "/A()>> f") := by cbv
  have h₆ : nextToken (Bytes.ofAscii "/A()>> f") = (.name "A", Bytes.ofAscii "()>> f") := by cbv
  have h₇ : nextToken (Bytes.ofAscii "()>> f") = (.str [], Bytes.ofAscii ">> f") := by cbv
  have h₈ : nextToken (Bytes.ofAscii ">> f") = (.dictEnd, Bytes.ofAscii " f") := by cbv
  obtain ⟨o', hsame, hobject, hcontent⟩ := hwrites.read_back <|
    .cons h₁ (by simp) <| .cons h₂ (by simp) <| .cons h₃ (by simp) <| .cons h₄ (by simp) <|
    .cons h₅ (by simp) <| .cons h₆ (by simp) <| .cons h₇ (by simp) <| .cons h₈ (by simp) <| .nil _
  refine ⟨o', hsame, hobject ?_, hcontent ?_ ?_ #[] []⟩
  · have hnext : nextToken (Bytes.ofAscii " f") = (.word "f", []) := by cbv
    simp [EndsBefore, ofBytes_first hnext]
  · have harray : (Obj.array [.null]).Spelled := .array (by simpa using .null)
    exact .dict (by simpa using ⟨.str [], harray⟩)
  · have harray : (Obj.array [.null]).NestedWithin 63 := .array (by simpa using .atom rfl rfl)
    exact .dict (by simpa using ⟨.atom rfl rfl, harray⟩)

end PdfScene
