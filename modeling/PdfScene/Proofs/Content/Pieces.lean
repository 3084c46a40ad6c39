import PdfScene.Proofs.Content.Operands
import PdfScene.Proofs.Lexical.LineFeed

/-!
# Pieces — operands and the words behind them

The reader does two things at once: it puts containers together, and it hands an operator the operands
before it. Here they are told apart. `divide` only puts together: it leaves a piece of content as a list
of operands, words and images. `ofPieces` only hands over: a word takes operands from those since the
word or image before it, and uses up all of them, whether it is an operator or not and whether they are
enough or not. `readAll_eq` says that the reader does the one and then the other.

What the division knows besides is what is open at the end.
-/

set_option autoImplicit false

namespace PdfScene.Operation

/-! ## Putting containers together -/

/-- What content consists of. -/
inductive Piece where
  | operand (o : Obj)
  /-- A word between operands. -/
  | word (w : String)
  /-- An image that stands in the content, with its samples. -/
  | image (entries : Dict) (data : Bytes)

/-- What a token leads to: pieces and the containers then open, or samples. -/
inductive Dealt where
  | pieces (ps : List Piece) (stack : List Frame)
  | image (entries : Dict)

/-- A division of content. -/
structure Division where
  pieces : List Piece
  /-- The containers open at the end, innermost first; none if the content ends in samples. -/
  stillOpen : Option (List Frame)

/-- What a token leads to where the containers of `stack` are open. A word between operands is a piece
and may begin an image; any other token goes into a container or is an operand. -/
def deal (stack : List Frame) (t : Token) : Dealt :=
  match stack, t with
  | [], .word w =>
    .pieces [.word w]
      (if Operator.ofCommand? w = some .inlineImage then [.dict true [] none] else [])
  | stack, t =>
    match Reader.feed ⟨[], stack⟩ t with
    | .more r => .pieces (r.operands.reverse.map .operand) r.stack
    | .operation _ => .pieces [] stack
    | .image entries => .image entries

/-- An image that has begun and has no samples. -/
def unfinished (stack : List Frame) : List Piece :=
  match stack.getLast? with
  | some (.dict true _ _) => [.image [] []]
  | _ => []

def Division.prepend (ps : List Piece) (d : Division) : Division := { d with pieces := ps ++ d.pieces }

/-- The division of content that is read with the containers of `stack` open. -/
def divide (stack : List Frame) (bs : Bytes) : Division :=
  match _h : Token.scan bs with
  | (.error _, rest) => divide stack rest
  | (.ok t, rest) =>
    if _ht : t matches .eof then ⟨unfinished stack, some stack⟩
    else
      match deal stack t with
      | .pieces ps stack => (divide stack rest).prepend ps
      | .image entries =>
        let samples := InlineData.scan rest
        if InlineData.isComplete rest then
          (divide [] samples.2).prepend [.image entries samples.1]
        else ⟨[.image entries samples.1], none⟩
termination_by bs.length
decreasing_by
  · exact Token.scan_progress _h nofun
  · exact Token.scan_progress _h (by rintro ⟨⟩; exact _ht rfl)
  · have := Token.scan_progress _h (by rintro ⟨⟩; exact _ht rfl)
    exact Nat.lt_of_le_of_lt (InlineData.scan_length_le rest) this

/-! ## Handing operands over -/

/-- The operation of a word over the operands before it: an operator takes the last ones. The word that
begins an image takes none, as the image is a piece of its own. -/
def applied (since : List Obj) (w : String) : Option Operation :=
  match Operator.ofCommand? w with
  | none => none
  | some op =>
    if op = .inlineImage then none
    else
      match op.arity? with
      | none => some ⟨op, since⟩
      | some n => if since.length < n then none else some ⟨op, since.drop (since.length - n)⟩

/-- The operations of pieces that follow the operands `since`. -/
def ofPieces (since : List Obj) : List Piece → List Operation
  | [] => []
  | .operand o :: ps => ofPieces (since ++ [o]) ps
  | .word w :: ps => (applied since w).toList ++ ofPieces [] ps
  | .image entries data :: ps => ⟨.inlineImage, [.stream entries data none]⟩ :: ofPieces [] ps

@[simp] theorem ofPieces_operands (since items : List Obj) (ps : List Piece) :
    ofPieces since (items.map .operand ++ ps) = ofPieces (since ++ items) ps := by
  induction items generalizing since with
  | nil => simp
  | cons o items ih =>
    rw [List.map_cons, List.cons_append, ofPieces, ih, List.append_assoc]
    rfl

/-! ## The reader divides and hands over -/

namespace Reader

/-- The reader with operands that were there before its own. -/
def behind (r : Reader) (before : List Obj) : Reader := { r with operands := r.operands ++ before }

variable (r : Reader) (before : List Obj)

theorem deliver_behind (o : Obj) : (r.behind before).deliver o = (r.deliver o).behind before := by
  obtain ⟨operands, stack⟩ := r
  unfold deliver
  dsimp only [behind]
  split <;> rfl

theorem skip_behind : (r.behind before).skip = r.skip.behind before := by
  obtain ⟨operands, stack⟩ := r
  unfold skip
  dsimp only [behind]
  split <;> rfl

theorem operand_behind (t : Token) :
    (r.behind before).operand t = (r.operand t).behind before := by
  have hopen (f : Frame) :
      (if r.stack.length < nestingLimit then { r.behind before with stack := f :: r.stack }
        else (r.behind before).skip) =
      (if r.stack.length < nestingLimit then { r with stack := f :: r.stack }
        else r.skip).behind before := by
    split
    · rfl
    · exact skip_behind ..
  unfold operand
  split
  · exact deliver_behind ..
  · exact deliver_behind ..
  · exact deliver_behind ..
  · exact deliver_behind ..
  · exact deliver_behind ..
  · exact deliver_behind ..
  · exact hopen _
  · exact hopen _
  · exact skip_behind ..

end Reader

/-- What a token leads to, with operands that were there before. -/
def Fed.behind (f : Fed) (before : List Obj) : Fed :=
  match f with
  | .more r => .more (r.behind before)
  | f => f

/-- A token that is no word between operands does not look at the operands before it. -/
theorem Reader.feed_behind (r : Reader) (before : List Obj) {t : Token}
    (h : r.stack = [] → ∀ w, t ≠ .word w) : (r.behind before).feed t = (r.feed t).behind before := by
  obtain ⟨operands, stack⟩ := r
  unfold feed
  dsimp only [behind]
  split
  · split
    · rename_i w
      exact absurd rfl (h rfl w)
    · exact congrArg Fed.more (operand_behind ⟨operands, []⟩ before t)
  · rename_i items outer
    split
    · exact congrArg Fed.more (deliver_behind ⟨operands, outer⟩ before _)
    · rfl
    · exact congrArg Fed.more (operand_behind ⟨operands, .array items :: outer⟩ before t)
  · rename_i image entries key outer
    split
    · split
      · rfl
      · exact congrArg Fed.more (deliver_behind ⟨operands, outer⟩ before _)
    · split
      · rfl
      · rfl
      · exact congrArg Fed.more
          (operand_behind ⟨operands, .dict image entries _ :: outer⟩ before t)

theorem word_or (stack : List Frame) (t : Token) :
    (stack = [] → ∀ w, t ≠ .word w) ∨ ∃ w, stack = [] ∧ t = .word w := by
  by_cases h : ∃ w, stack = [] ∧ t = .word w
  · exact .inr h
  · exact .inl fun hs w ht => h ⟨w, hs, ht⟩

theorem deal_of_not_word {stack : List Frame} {t : Token} (h : stack = [] → ∀ w, t ≠ .word w) :
    deal stack t = match Reader.feed ⟨[], stack⟩ t with
      | .more r => .pieces (r.operands.reverse.map .operand) r.stack
      | .operation _ => .pieces [] stack
      | .image entries => .image entries := by
  unfold deal
  split
  · exact absurd rfl (h rfl _)
  · rfl

/-- Only a word between operands completes an operation. -/
theorem Reader.feed_ne_operation {r : Reader} {t : Token} (h : r.stack = [] → ∀ w, t ≠ .word w)
    (o : Operation) : r.feed t ≠ .operation o := by
  unfold feed
  split
  · rename_i hs
    split
    · exact absurd rfl (h hs _)
    · nofun
  · split <;> nofun
  · split
    · split <;> nofun
    · split <;> nofun

theorem Reader.word_operator {r : Reader} {w : String} {op : Operator}
    (hw : Operator.ofCommand? w = some op) (hop : op ≠ .inlineImage) : r.word w = r.complete op := by
  unfold word
  rw [hw]
  cases op <;> first | rfl | exact absurd rfl hop

/-- **A word between operands takes the last of them and leaves none.** -/
theorem Reader.word_eq (r : Reader) (w : String) :
    r.word w =
      match applied r.operands.reverse w with
      | some o => .operation o
      | none =>
        .more ⟨[], if Operator.ofCommand? w = some .inlineImage then [.dict true [] none] else []⟩ := by
  unfold applied
  cases hw : Operator.ofCommand? w with
  | none =>
    unfold word
    rw [hw]
    rfl
  | some op =>
    by_cases hop : op = .inlineImage
    · subst hop
      unfold word
      rw [hw]
      rfl
    · have hbegun : some op ≠ some .inlineImage := fun h => hop (Option.some.inj h)
      rw [word_operator hw hop, if_neg hbegun]
      dsimp only
      rw [if_neg hop]
      unfold complete
      cases op.arity? with
      | none => rfl
      | some n =>
        dsimp only
        rw [List.length_reverse]
        by_cases hshort : r.operands.length < n
        · rw [if_pos hshort, if_pos hshort]
          rfl
        · rw [if_neg hshort, if_neg hshort, List.reverse_take]

theorem Reader.word_more {r r' : Reader} {w : String} (h : r.word w = .more r') :
    applied r.operands.reverse w = none ∧
      r' = ⟨[], if Operator.ofCommand? w = some .inlineImage then [.dict true [] none] else []⟩ := by
  rw [word_eq] at h
  cases happlied : applied r.operands.reverse w with
  | none =>
    rw [happlied] at h
    cases h
    exact ⟨rfl, rfl⟩
  | some o =>
    rw [happlied] at h
    cases h

theorem Reader.word_operation {r : Reader} {w : String} {o : Operation}
    (h : r.word w = .operation o) : applied r.operands.reverse w = some o := by
  rw [word_eq] at h
  cases happlied : applied r.operands.reverse w with
  | none =>
    rw [happlied] at h
    cases h
  | some o =>
    rw [happlied] at h
    cases h
    rfl

theorem Reader.word_ne_image {r : Reader} {w : String} {entries : Dict} :
    r.word w ≠ .image entries := by
  rw [word_eq]
  cases applied r.operands.reverse w <;> nofun

theorem ofCommand?_of_applied {since : List Obj} {w : String} {o : Operation}
    (h : applied since w = some o) : Operator.ofCommand? w ≠ some .inlineImage := by
  intro hw
  unfold applied at h
  rw [hw] at h
  cases h

/-! Whatever the reader does with a token, its pieces are handed over in the same way. -/

section Feeding

variable {r r' : Reader} {t : Token} {o : Operation} {entries : Dict}

theorem feed_more (h : r.feed t = .more r') :
    ∃ ps, deal r.stack t = .pieces ps r'.stack ∧
      ∀ qs, ofPieces r.operands.reverse (ps ++ qs) = ofPieces r'.operands.reverse qs := by
  obtain ⟨operands, stack⟩ := r
  rcases word_or stack t with hword | ⟨w, rfl, rfl⟩
  · rw [deal_of_not_word hword]
    have hbehind : Reader.feed ⟨operands, stack⟩ t = _ :=
      Reader.feed_behind ⟨[], stack⟩ operands hword
    rw [h] at hbehind
    cases hfed : Reader.feed ⟨[], stack⟩ t with
    | more r₀ =>
      rw [hfed] at hbehind
      cases hbehind
      refine ⟨_, rfl, fun qs => ?_⟩
      rw [ofPieces_operands, Reader.behind, List.reverse_append]
    | operation => rw [hfed] at hbehind; cases hbehind
    | image => rw [hfed] at hbehind; cases hbehind
  · obtain ⟨hnone, rfl⟩ := Reader.word_more h
    refine ⟨[.word w], rfl, fun qs => ?_⟩
    rw [List.singleton_append, ofPieces, hnone]
    rfl

theorem feed_operation (h : r.feed t = .operation o) :
    ∃ ps, deal r.stack t = .pieces ps [] ∧
      ∀ qs, ofPieces r.operands.reverse (ps ++ qs) = o :: ofPieces [] qs := by
  obtain ⟨operands, stack⟩ := r
  rcases word_or stack t with hword | ⟨w, rfl, rfl⟩
  · exact absurd h (Reader.feed_ne_operation hword o)
  · have hsome := Reader.word_operation h
    have hbegun := ofCommand?_of_applied hsome
    refine ⟨[.word w], congrArg (Dealt.pieces [.word w]) (if_neg hbegun), fun qs => ?_⟩
    rw [List.singleton_append, ofPieces, hsome]
    rfl

theorem feed_image (h : r.feed t = .image entries) : deal r.stack t = .image entries := by
  obtain ⟨operands, stack⟩ := r
  rcases word_or stack t with hword | ⟨w, rfl, rfl⟩
  · rw [deal_of_not_word hword]
    have hbehind : Reader.feed ⟨operands, stack⟩ t = _ :=
      Reader.feed_behind ⟨[], stack⟩ operands hword
    rw [h] at hbehind
    cases hfed : Reader.feed ⟨[], stack⟩ t with
    | more => rw [hfed] at hbehind; cases hbehind
    | operation => rw [hfed] at hbehind; cases hbehind
    | image => rw [hfed] at hbehind; cases hbehind; rfl
  · exact absurd h Reader.word_ne_image

end Feeding

section Dividing

variable {bs rest : Bytes} {stack stack' : List Frame} {t : Token} {ps : List Piece}
  {entries : Dict}

theorem divide_error {fault : TokenFault} (h : Token.scan bs = (.error fault, rest)) :
    divide stack bs = divide stack rest := by
  rw [divide]
  split
  · rename_i hs
    rw [h] at hs
    cases hs
    rfl
  · rename_i hs
    rw [h] at hs
    cases hs

theorem divide_eof (h : Token.scan bs = (.ok .eof, rest)) :
    divide stack bs = ⟨unfinished stack, some stack⟩ := by
  rw [divide]
  split
  · rename_i hs
    rw [h] at hs
    cases hs
  · rename_i hs
    rw [h] at hs
    cases hs
    rfl

@[simp] theorem divide_empty : divide stack [] = ⟨unfinished stack, some stack⟩ := divide_eof rfl

theorem divide_ok (h : Token.scan bs = (.ok t, rest)) (ht : t ≠ .eof) :
    divide stack bs = match deal stack t with
      | .pieces ps stack => (divide stack rest).prepend ps
      | .image entries =>
        if InlineData.isComplete rest then
          (divide [] (InlineData.scan rest).2).prepend [.image entries (InlineData.scan rest).1]
        else ⟨[.image entries (InlineData.scan rest).1], none⟩ := by
  rw [divide]
  split
  · rename_i hs
    rw [h] at hs
    cases hs
  · rename_i hs
    rw [h] at hs
    cases hs
    cases t <;> first | exact absurd rfl ht | rfl

end Dividing

theorem ofPieces_unfinished (since : List Obj) (r : Reader) :
    ofPieces since (unfinished r.stack) = r.finish := by
  unfold unfinished Reader.finish
  rcases r.stack.getLast? with _ | items | ⟨_ | _, entries, key⟩ <;> rfl

/-- Reading goes on as dividing and handing over do. -/
theorem readFrom_eq (done : Array Operation) (r : Reader) (bs : Bytes) :
    (readFrom done r bs).toList =
      done.toList ++ ofPieces r.operands.reverse (divide r.stack bs).pieces := by
  fun_induction readFrom done r bs with
  | case1 done r bs fault rest hscan ih => rw [ih, divide_error hscan]
  | case2 done r bs t rest hscan heof =>
    have ht : t = .eof := by
      cases t <;> first | rfl | cases heof
    subst ht
    rw [divide_eof hscan, ofPieces_unfinished, Array.toList_appendList]
  | case3 done r bs t rest hscan heof r' hfed ih =>
    obtain ⟨ps, hdeal, hps⟩ := feed_more hfed
    rw [ih, divide_ok hscan (by rintro rfl; exact heof rfl), hdeal]
    exact congrArg _ (hps _).symm
  | case4 done r bs t rest hscan heof o hfed ih =>
    obtain ⟨ps, hdeal, hps⟩ := feed_operation hfed
    rw [ih, divide_ok hscan (by rintro rfl; exact heof rfl), hdeal, Array.toList_push,
      List.append_assoc]
    exact congrArg _ (hps _).symm
  | case5 done r bs t rest hscan heof entries hfed image ih =>
    rw [ih, divide_ok hscan (by rintro rfl; exact heof rfl), feed_image hfed, Array.toList_push,
      List.append_assoc]
    dsimp only
    split
    · rfl
    · rename_i hcomplete
      have hrest : image.2 = [] :=
        InlineData.scan_of_not_isComplete (Bool.eq_false_iff.mpr hcomplete)
      rw [hrest, divide_empty]
      rfl

/-- **Content is divided into pieces, and words take the operands before them.** -/
theorem readAll_eq (bs : Bytes) : readAll bs = ofPieces [] (divide [] bs).pieces :=
  readFrom_eq #[] .empty bs

end PdfScene.Operation
