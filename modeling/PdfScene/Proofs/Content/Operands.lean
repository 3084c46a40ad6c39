import PdfScene.Content.Interpret
import PdfScene.Proofs.Object.Plain

/-!
# Operands — what content spells out

Content spells its operands out: `Obj.Spelled` is what can stand in it, atoms, arrays and
dictionaries of them, and nothing else. A stream does not come out of spelling, so only the image that
stands in the content is one, with entries that are spelled out. None of this is defined under a
reference, which is what `Obj.Plain` asks; so nothing that content spells out is mistaken for something
remembered.

The reader is a machine fed with tokens. Its invariant is that the operands read so far and the
containers still open are spelled out; each token keeps it.
-/

set_option autoImplicit false

namespace PdfScene

/-! ## What can be spelled out -/

/-- An object in which there is no stream, no reference, no word and no end of input, at any depth. -/
inductive Obj.Spelled : Obj → Prop where
  | null : Spelled .null
  | bool (b : Bool) : Spelled (.bool b)
  | num (x : Float) : Spelled (.num x)
  | str (bytes : Bytes) : Spelled (.str bytes)
  | hexStr (bytes : Bytes) : Spelled (.hexStr bytes)
  | name (text : String) : Spelled (.name text)
  | array {items : List Obj} : (∀ o ∈ items, o.Spelled) → Spelled (.array items)
  | dict {entries : Dict} : (∀ e ∈ entries, e.2.Spelled) → Spelled (.dict entries)

theorem Obj.Spelled.plain {o : Obj} (h : o.Spelled) : o.Plain := by
  induction h with
  | array _ ih => exact .array ih
  | dict _ ih => exact .dict ih
  | _ => exact .atom rfl rfl

theorem Dict.spelled_insert {d : Dict} {key : String} {value : Obj} (hd : ∀ e ∈ d, e.2.Spelled)
    (hvalue : value.Spelled) : ∀ e ∈ d.insert key value, e.2.Spelled := fun e he => by
  rcases Dict.mem_insert he with rfl | he
  · exact hvalue
  · exact hd e he

namespace Operation

/-- The operations that can stand in content: an image with its samples, and any other operator with
operands that are spelled out. -/
inductive Spelled : Operation → Prop where
  | image {entries : Dict} {data : Bytes} :
      (∀ e ∈ entries, e.2.Spelled) → Spelled ⟨.inlineImage, [.stream entries data none]⟩
  | operands {op : Operator} {args : List Obj} :
      op ≠ .inlineImage → (∀ a ∈ args, a.Spelled) → Spelled ⟨op, args⟩

/-- An operation whose operands are plain. -/
def Plain (o : Operation) : Prop := ∀ a ∈ o.args, a.Plain

theorem Spelled.plain {o : Operation} (h : o.Spelled) : o.Plain := by
  cases h with
  | image hentries =>
    intro a ha
    rw [List.mem_singleton.mp ha]
    exact .stream fun e he => (hentries e he).plain
  | operands _ hargs => exact fun a ha => (hargs a ha).plain

theorem Plain.stream {o : Operation} {s : StreamObj} {i : Nat} {expected : String} (h : o.Plain)
    (hs : o.operand i expected Obj.stream? = .ok s) : s.toObj.Plain := by
  unfold operand at hs
  split at hs
  · rename_i t ht
    cases hs
    obtain ⟨a, ha, has⟩ := Option.bind_eq_some_iff.mp ht
    exact StreamObj.toObj_of_stream? has ▸ h a (List.mem_of_getElem? ha)
  · cases hs

end Operation

/-- Entries stay plain when their keys are spelt in full. -/
theorem InlineData.plain_fullKeys {entries d : Dict} (hentries : ∀ e ∈ entries, e.2.Plain)
    (hd : ∀ e ∈ d, e.2.Plain) :
    ∀ e ∈ entries.foldl (fun d (key, value) => d.insert (fullKey key) value) d, e.2.Plain := by
  induction entries generalizing d with
  | nil => exact hd
  | cons entry entries ih =>
    obtain ⟨hentry, hentries⟩ := List.forall_mem_cons.mp hentries
    exact ih hentries (Dict.plain_insert hd hentry)

theorem InlineData.expand_plain {s : StreamObj} (h : s.toObj.Plain) (order : Dict.Order) :
    (expand order s).toObj.Plain := by
  have hentries : ∀ e ∈ order.entries s.dict, e.2.Plain := by
    intro e he
    exact h.entries rfl e ((order.perm s.dict).mem_iff.mp he)
  exact .stream (plain_fullKeys hentries (by simp))

/-! ## The reader -/

namespace Operation

/-- A container in which everything is spelled out. -/
def Frame.Spelled : Frame → Prop
  | .array items => ∀ o ∈ items, o.Spelled
  | .dict _ entries _ => ∀ e ∈ entries, e.2.Spelled

/-- Everything that waits for an operator is spelled out. -/
structure Reader.Spelled (r : Reader) : Prop where
  operands : ∀ o ∈ r.operands, o.Spelled
  stack : ∀ f ∈ r.stack, f.Spelled

/-- Everything that a token leads to is spelled out. -/
def Fed.Spelled : Fed → Prop
  | .more r => r.Spelled
  | .operation o => o.Spelled
  | .image entries => ∀ e ∈ entries, e.2.Spelled

namespace Reader.Spelled

variable {r : Reader}

theorem empty : Reader.empty.Spelled := ⟨by simp [Reader.empty], by simp [Reader.empty]⟩

theorem deliver {o : Obj} (h : r.Spelled) (ho : o.Spelled) : (r.deliver o).Spelled := by
  unfold Reader.deliver
  have hstack := h.stack
  split
  · exact ⟨List.forall_mem_cons.mpr ⟨ho, h.operands⟩, h.stack⟩
  · rename_i items outer hs
    rw [hs, List.forall_mem_cons] at hstack
    exact ⟨h.operands, List.forall_mem_cons.mpr
      ⟨List.forall_mem_cons.mpr ⟨ho, hstack.1⟩, hstack.2⟩⟩
  · rename_i image entries key outer hs
    rw [hs, List.forall_mem_cons] at hstack
    exact ⟨h.operands, List.forall_mem_cons.mpr ⟨Dict.spelled_insert hstack.1 ho, hstack.2⟩⟩
  · rename_i image entries outer hs
    rw [hs, List.forall_mem_cons] at hstack
    exact ⟨h.operands, List.forall_mem_cons.mpr ⟨hstack.1, hstack.2⟩⟩

theorem skip (h : r.Spelled) : r.skip.Spelled := by
  unfold Reader.skip
  have hstack := h.stack
  split
  · rename_i image entries key outer hs
    rw [hs, List.forall_mem_cons] at hstack
    exact ⟨h.operands, List.forall_mem_cons.mpr ⟨hstack.1, hstack.2⟩⟩
  · exact h

/-- A container that opens is empty. -/
theorem push {f : Frame} (h : r.Spelled) (hf : f.Spelled) :
    Reader.Spelled { r with stack := f :: r.stack } :=
  ⟨h.operands, List.forall_mem_cons.mpr ⟨hf, h.stack⟩⟩

theorem operand (h : r.Spelled) (t : Token) : (r.operand t).Spelled := by
  unfold Reader.operand
  split
  · exact h.deliver (.num _)
  · exact h.deliver (.bool _)
  · exact h.deliver .null
  · exact h.deliver (.str _)
  · exact h.deliver (.hexStr _)
  · exact h.deliver (.name _)
  · split
    · exact h.push (by simp [Frame.Spelled])
    · exact h.skip
  · split
    · exact h.push (by simp [Frame.Spelled])
    · exact h.skip
  · exact h.skip

theorem complete (h : r.Spelled) {op : Operator} (hop : op ≠ .inlineImage) :
    (r.complete op).Spelled := by
  unfold Reader.complete
  split
  · exact .operands hop fun a ha => h.operands a (List.mem_reverse.mp ha)
  · split
    · exact empty
    · exact .operands hop fun a ha =>
        h.operands a (List.mem_of_mem_take (List.mem_reverse.mp ha))

theorem word (h : r.Spelled) (w : String) : (r.word w).Spelled := by
  unfold Reader.word
  split
  · exact empty
  · exact ⟨by simp, by simp [Frame.Spelled]⟩
  · rename_i op hop _
    exact h.complete hop

/-- **A token keeps the reader to what is spelled out**, and so is what it completes. -/
theorem feed (h : r.Spelled) (t : Token) : (r.feed t).Spelled := by
  unfold Reader.feed
  have hstack := h.stack
  split
  · split
    · exact h.word _
    · exact h.operand t
  · rename_i items outer hs
    rw [hs, List.forall_mem_cons] at hstack
    split
    · have houter : Reader.Spelled { r with stack := outer } := ⟨h.operands, hstack.2⟩
      exact houter.deliver (.array fun o ho => hstack.1 o (List.mem_reverse.mp ho))
    · exact h
    · exact h.operand t
  · rename_i image entries key outer hs
    rw [hs, List.forall_mem_cons] at hstack
    have houter : Reader.Spelled { r with stack := outer } := ⟨h.operands, hstack.2⟩
    split
    · split
      · exact hstack.1
      · exact houter.deliver (.dict hstack.1)
    · split
      · exact houter.push (f := .dict image entries _) hstack.1
      · exact h
      · exact h.operand t

end Reader.Spelled

theorem Reader.finish_spelled (r : Reader) : ∀ o ∈ r.finish, o.Spelled := by
  unfold Reader.finish
  split
  · intro o ho
    rw [List.mem_singleton.mp ho]
    exact .image (by simp)
  · simp

/-- Reading goes on from what is spelled out to what is spelled out. -/
theorem readFrom_spelled (done : Array Operation) (r : Reader) (bs : Bytes) (h : r.Spelled)
    (hdone : ∀ o ∈ done, o.Spelled) : ∀ o ∈ readFrom done r bs, o.Spelled := by
  have hpush : ∀ {done : Array Operation} {o : Operation}, (∀ o ∈ done, o.Spelled) → o.Spelled →
      ∀ o' ∈ done.push o, o'.Spelled := by
    intro done o hdone ho o' ho'
    rcases Array.mem_push.mp ho' with ho' | rfl
    · exact hdone o' ho'
    · exact ho
  fun_induction readFrom done r bs with
  | case1 _ _ _ _ _ _ ih => exact ih h hdone
  | case2 done r bs t rest hscan heof =>
    intro o ho
    rw [← Array.mem_toList_iff, Array.toList_appendList] at ho
    rcases List.mem_append.mp ho with ho | ho
    · exact hdone o (Array.mem_toList_iff.mp ho)
    · exact Reader.finish_spelled r o ho
  | case3 done r bs t rest hscan heof r' hfed ih =>
    have hfeed := h.feed t
    rw [hfed] at hfeed
    exact ih hfeed hdone
  | case4 done r bs t rest hscan heof o hfed ih =>
    have hfeed := h.feed t
    rw [hfed] at hfeed
    exact ih .empty (hpush hdone hfeed)
  | case5 done r bs t rest hscan heof entries hfed image ih =>
    have hfeed := h.feed t
    rw [hfed] at hfeed
    exact ih .empty (hpush hdone (.image hfeed))

/-- **The operations of content are spelled out.** -/
theorem readAll_spelled (bs : Bytes) : ∀ o ∈ readAll bs, o.Spelled := fun o ho =>
  readFrom_spelled #[] .empty bs .empty (by simp) o (Array.mem_toList_iff.mp ho)

theorem readAll_plain (bs : Bytes) : ∀ o ∈ readAll bs, o.Plain := fun o ho =>
  (readAll_spelled bs o ho).plain

end Operation

end PdfScene
