import PdfScene.Proofs.Object.Reading

/-!
# Plain objects

A stream knows the reference that it is defined under, and it is the definition that tells it.
Before that no stream knows one: what is read from bytes is `Obj.Plain`. That is all there is to
know where streams are told apart by their references, as every stream that carries one is then an
object of its own.
-/

set_option autoImplicit false

namespace PdfScene

/-! ## The predicate -/

/-- An object in which no stream carries a reference, as it is before it is defined under one. -/
inductive Obj.Plain : Obj → Prop where
  | atom {o : Obj} : o.dict? = none → o.array? = none → Plain o
  | array {items : List Obj} : (∀ o ∈ items, o.Plain) → Plain (.array items)
  | dict {entries : Dict} : (∀ e ∈ entries, e.2.Plain) → Plain (.dict entries)
  | stream {entries : Dict} {data : Bytes} :
      (∀ e ∈ entries, e.2.Plain) → Plain (.stream entries data none)

/-- The object of a stream. -/
def StreamObj.toObj (s : StreamObj) : Obj := .stream s.dict s.data s.ref

theorem StreamObj.toObj_of_stream? {o : Obj} {s : StreamObj} (h : o.stream? = some s) :
    o = s.toObj := by
  cases o with
  | stream entries data r =>
    cases h
    rfl
  | _ => cases h

theorem Obj.Plain.stream_ref {s : StreamObj} (h : s.toObj.Plain) : s.ref = none := by
  obtain ⟨dict, data, ref⟩ := s
  cases h with
  | atom hdict _ => cases hdict
  | stream => rfl

theorem Dict.mem_insert {d : Dict} {key : String} {value : Obj} {e : String × Obj}
    (h : e ∈ d.insert key value) : e = (key, value) ∨ e ∈ d := by
  induction d with
  | nil => exact .inl (List.mem_singleton.mp h)
  | cons entry rest ih =>
    unfold Dict.insert at h
    split at h
    · rcases List.mem_cons.mp h with h | h
      · exact .inl h
      · exact .inr (List.mem_cons_of_mem _ h)
    · rcases List.mem_cons.mp h with h | h
      · exact .inr (h ▸ List.mem_cons_self)
      · exact (ih h).imp id (List.mem_cons_of_mem _)

theorem Dict.plain_insert {d : Dict} {key : String} {value : Obj} (hd : ∀ e ∈ d, e.2.Plain)
    (hvalue : value.Plain) : ∀ e ∈ d.insert key value, e.2.Plain := fun e he => by
  rcases Dict.mem_insert he with rfl | he
  · exact hvalue
  · exact hd e he

theorem Obj.Plain.entries {o : Obj} {d : Dict} (h : o.Plain) (hd : o.dict? = some d) :
    ∀ e ∈ d, e.2.Plain := by
  cases h with
  | atom hnone _ => rw [hnone] at hd; cases hd
  | array => cases hd
  | dict hentries => cases hd; exact hentries
  | stream hentries => cases hd; exact hentries

theorem Obj.Plain.items {o : Obj} {items : List Obj} (h : o.Plain) (hi : o.array? = some items) :
    ∀ x ∈ items, x.Plain := by
  cases h with
  | atom _ hnone => rw [hnone] at hi; cases hi
  | array hitems => cases hi; exact hitems
  | dict => cases hi
  | stream => cases hi

/-! ## Objects are read plain -/

namespace Lookahead

theorem plain_invariant : Invariant Obj.Plain fun d => ∀ e ∈ d, e.2.Plain where
  atom _ hdict harray := .atom hdict harray
  array _ := .array
  empty _ he := absurd he List.not_mem_nil
  insert _ _ _ := Dict.plain_insert
  dict _ := .dict
  stream _ _ := .stream

/-- **An object is read plain.** -/
theorem readObject_plain {view : Lookahead} {o : Obj} (h : view.readObject.1 = .ok o) : o.Plain :=
  plain_invariant.readObject h

/-- What a definition defines is a plain object with its reference. -/
theorem readDefinition_labelled {view : Lookahead} {r : ObjRef} {o : Obj}
    (h : view.readDefinition.1 = .ok (r, o)) : ∃ o' : Obj, o'.Plain ∧ o = o'.definedUnder r := by
  unfold readDefinition at h
  split at h
  · cases h
  · split at h
    · cases h
    · split at h
      · cases h
      · split at h
        · cases h
        · rename_i o' _ hread
          cases h
          exact ⟨o', readObject_plain (by rw [hread]), rfl⟩

end Lookahead

end PdfScene
