import PdfScene.Proofs.Store.Places

/-!
# Files with room for the data of a stream

Scanning looks for words wherever they stand, so the data of a stream may say anything and is not
opaque by itself. It is where the scan passes over it (`Slot.Contained`): the search for the `endobj`
of the stream goes behind the data, no `trailer` stands in it, and whatever is read in front of the
stream ends in front of the data. Then two files with other data are scanned side by side: they have
the same definitions and the same trailers, but for the stream itself (`Slot.contents`).
-/

set_option autoImplicit false

namespace PdfScene.Scan

/-! ## Files with room for data -/

/-- A file but for the data of one stream. -/
structure Slot where
  /-- What stands before the keyword of the stream's definition. -/
  before : Bytes
  /-- What stands between the keyword and the data. -/
  opening : Bytes
  /-- What stands behind the data. -/
  after : Bytes

namespace Slot

variable (S : Slot) (body : Bytes)

/-- The data and all that follows it. -/
def tail : Bytes := body ++ S.after

def bytes : Bytes := S.before ++ keyword ++ (S.opening ++ S.tail body)

/-- The place behind the keyword. -/
def place : Place := ⟨(S.before ++ keyword).reverse, S.opening ++ S.tail body⟩

/-- The data belongs to the stream that the scan reads there, under the reference `r` and with the
dictionary `d`, whose direct length is that of the data. -/
structure Holds (r : ObjRef) (d : Dict) : Prop where
  reached : S.place body ∈ (Place.start (S.bytes body)).keywords
  /-- The reader comes to the end of the dictionary, and the data is what follows. -/
  opened : ∃ source view view', definition? (S.place body) = some source ∧
    (Lookahead.ofBytes source).readHeader = (.ok r, view) ∧
    Lookahead.Leads [] view [.dict d] view' ∧ view'.OnStream ∧
    StreamBody.skipLineEnd view'.rest = S.tail body
  marked : StreamBody.mark <+: Token.skipBlanks false S.after
  measured : Lookahead.statedLength d = some body.length
  untyped : (d.get? "Type").bind Obj.name? ≠ some "ObjStm" ∧ (d.get? "Type").bind Obj.name? ≠ some "XRef"

/-- The first `endobj` behind the keyword stands behind the data. -/
def Closed : Prop := ∃ q, Place.find? endKeyword (S.place body).before (S.place body).after = some q ∧
  q.after.length + endKeyword.length ≤ S.after.length

/-- What is read as a definition in front of the stream is read in front of the data. -/
def DefinitionsBefore : Prop := ∀ q ∈ (Place.start (S.bytes body)).keywords,
  (S.place body).after.length < q.after.length → q.ReadsBefore (S.tail body).length

/-- A word `trailer` stands behind the data, or what is read there is read in front of the data. -/
def TrailersBeside : Prop := ∀ q ∈ (Place.start (S.bytes body)).trailerWords,
  q.after.length + trailerKeyword.length ≤ S.after.length ∨ q.TrailerBefore (S.tail body).length

/-- The scan passes over the data. -/
structure Contained : Prop where
  closed : S.Closed body
  definitions : S.DefinitionsBefore body
  trailers : S.TrailersBeside body

variable {S} {body body' : Bytes} {r r' : ObjRef} {d d' : Dict}

/-- A stream as it is read, if there can be room for its data. -/
def streamOf (r : ObjRef) (d : Dict) (body : Bytes) : Except Panic (ObjRef × Obj) :=
  if StreamBody.hasRoom (some body.length) then .ok (r, .stream d body (some r))
  else .error .capacityOverflow

theorem streamOf_eq (h : StreamBody.hasRoom (some body.length) = true) :
    streamOf r d body = .ok (r, .stream d body (some r)) := if_pos h

/-- **The stream is read at its definition.** -/
theorem Holds.read?_eq (h : S.Holds body r d) : (S.place body).read? = some (streamOf r d body) := by
  obtain ⟨source, view, view', hsource, hheader, hleads, ⟨hfirst, hsecond⟩, hrest⟩ := h.opened
  have hread {result : Except Error Obj} {last : Lookahead}
      (hstep : Lookahead.step [.dict d] view' = .done result last) :
      (S.place body).read? = (outcome? (result.map fun o => (r, o.definedUnder r))) := by
    have hobject : view.readObject = (result, last) := by
      rw [Lookahead.readObject, hleads.run_eq, Lookahead.run_of_done hstep]
    rw [Place.read?, Place.reading?, hsource, Option.map_some, Option.bind_some,
      Lookahead.readDefinition_eq, Lookahead.andThen, hheader]
    dsimp only
    rw [Lookahead.andThen, hobject]
    cases result <;> rfl
  cases hroom : StreamBody.hasRoom (some body.length) with
  | true =>
    have hbody : (StreamBody.body (some body.length) view'.rest).1 = body := by
      have hmark : StreamBody.mark.isPrefixOf (Token.skipBlanks false S.after) = true :=
        List.isPrefixOf_iff_prefix.mpr h.marked
      rw [StreamBody.body, hrest, tail, List.drop_left, if_pos hmark, List.take_left]
    have hstep : Lookahead.step [.dict d] view' = .done (.ok (.stream d body none))
        (Lookahead.ofBytes (StreamBody.body (some body.length) view'.rest).2) := by
      simp only [Lookahead.step, hfirst, Lookahead.close, hsecond, if_true, h.measured,
        StreamBody.scan_of_hasRoom hroom, Lookahead.settle, hbody]
      rfl
    rw [hread hstep, streamOf_eq hroom]
    rfl
  | false =>
    have hstep : Lookahead.step [.dict d] view' = .done (.error (.panic .capacityOverflow)) view' := by
      simp only [Lookahead.step, hfirst, Lookahead.close, hsecond, if_true, h.measured,
        StreamBody.scan_of_not_hasRoom hroom]
    rw [hread hstep, streamOf, hroom]
    rfl

/-- It is the same stream in both files, but for the data. -/
theorem Holds.same (h : S.Holds body r d) (h' : S.Holds body' r' d') : r = r' ∧ d = d' := by
  obtain ⟨source, view₁, view, hsource, hheader, hleads, hstream, hrest⟩ := h.opened
  obtain ⟨source', view₁', view', hsource', hheader', hleads', hstream', hrest'⟩ := h'.opened
  -- both are read from the same bytes in front of the data
  obtain ⟨header, hseen, rfl⟩ := Place.of_definition? hsource
  obtain ⟨header', hseen', rfl⟩ := Place.of_definition? hsource'
  obtain rfl : header = header' := Option.some.inj (hseen.symm.trans hseen')
  obtain ⟨s, hs⟩ : ∃ s, s = header.reverse ++ keyword ++ S.opening := ⟨_, rfl⟩
  have hsplit : ∀ body, header.reverse ++ keyword ++ (S.place body).after = s ++ S.tail body := by
    intro body
    rw [hs, place, ← List.append_assoc]
  rw [hsplit] at hheader hheader'
  have hle : (S.tail body).length ≤ view.rest.length :=
    hrest ▸ StreamBody.skipLineEnd_length_le view.rest
  have hle' : (S.tail body').length ≤ view'.rest.length :=
    hrest' ▸ StreamBody.skipLineEnd_length_le view'.rest
  obtain ⟨⟨found, first, second⟩, t, heq, heq'⟩ := Lookahead.readHeader_local.onBytes.agrees s
    (S.tail body) (S.tail body') (by rw [hheader]; exact Nat.le_trans hle hleads.rest_length_le)
    (by rw [hheader']; exact Nat.le_trans hle' hleads'.rest_length_le)
  rw [hheader, Lookahead.seen_eq_iff] at heq
  rw [hheader', Lookahead.seen_eq_iff] at heq'
  cases heq
  cases heq'
  exact ⟨rfl, (hleads.agrees rfl rfl hleads' hstream hstream' hle hle').1⟩

/-! ## What the file contains -/

/-- Behind the stream the scan goes on behind the data. -/
theorem Contained.next_eq (hread : (S.place body).read?.isSome = true) (h : S.Contained body)
    (hread' : (S.place body').read?.isSome = true) (h' : S.Contained body') :
    (S.place body).next.defined = (S.place body').next.defined := by
  obtain ⟨q, hfind, hle⟩ := h.closed
  obtain ⟨q', hfind', hle'⟩ := h'.closed
  have hnext : (S.place body).next = q := by rw [Place.next, if_pos hread, hfind]; rfl
  have hnext' : (S.place body').next = q' := by rw [Place.next, if_pos hread', hfind']; rfl
  have hafter : q.after = q'.after := by
    have hsplit : ∀ body, (S.place body).after = (S.opening ++ body) ++ S.after := by
      intro body
      simp [place, tail]
    rw [hsplit] at hfind hfind'
    exact Place.find?_behind hfind hfind' hle hle'
  obtain ⟨a, -, hbefore, -⟩ := Place.of_find? hfind
  obtain ⟨a', -, hbefore', -⟩ := Place.of_find? hfind'
  rw [List.reverse_append, List.append_assoc] at hbefore hbefore'
  rw [hnext, hnext']
  obtain ⟨before, after⟩ := q
  obtain ⟨before', after'⟩ := q'
  dsimp only at hafter hbefore hbefore'
  subst hafter hbefore hbefore'
  exact Place.defined_blocked (by decide) _ _ _

/-- In front of the stream the scan comes to the same definitions whatever the data is. -/
theorem defined_front {before t : Bytes}
    (hreached : S.place body ∈ Place.keywords ⟨before, t ++ (S.place body).after⟩)
    (hclear : ∀ q ∈ Place.keywords ⟨before, t ++ (S.place body).after⟩,
      (S.place body).after.length < q.after.length → q.ReadsBefore (S.tail body).length)
    (hclear' : ∀ q ∈ Place.keywords ⟨before, t ++ (S.place body').after⟩,
      (S.place body').after.length < q.after.length → q.ReadsBefore (S.tail body').length)
    (hend : endKeyword <:+: (S.place body).after) :
    ∃ l, Place.defined ⟨before, t ++ (S.place body).after⟩ =
        l ++ ((S.place body).read?.toList ++ (S.place body).next.defined) ∧
      Place.defined ⟨before, t ++ (S.place body').after⟩ =
        l ++ ((S.place body').read?.toList ++ (S.place body').next.defined) := by
  obtain ⟨n, hn⟩ : ∃ n, n = t.length := ⟨_, rfl⟩
  induction n using Nat.strongRecOn generalizing before t with
  | ind n ih =>
    obtain ⟨q, hfind⟩ : ∃ q, Place.find? keyword before (t ++ (S.place body).after) = some q := by
      cases hfind : Place.find? keyword before (t ++ (S.place body).after) with
      | some q => exact ⟨q, rfl⟩
      | none =>
        rw [Place.keywords_eq, hfind] at hreached
        exact absurd hreached List.not_mem_nil
    rw [Place.keywords_of_find? hfind] at hreached hclear
    have hle : (S.place body).after.length ≤ q.after.length := by
      rcases List.mem_cons.mp hreached with rfl | hlater
      · exact Nat.le_refl _
      · exact Nat.le_of_lt (Nat.lt_of_lt_of_le
          (Place.length_lt_of_mem_words (by decide) hlater) (Place.next_length_le q))
    obtain ⟨u, hu, hfind'⟩ := Place.find?_front (by decide) hfind hle (S.place body').after
    rw [Place.keywords_of_find? hfind'] at hclear'
    rw [Place.defined_of_find? hfind, Place.defined_of_find? hfind']
    rcases List.mem_cons.mp hreached with rfl | hlater
    · -- it is the stream itself
      obtain rfl : u = [] := by
        have := congrArg List.length hu
        simp only [List.length_append] at this
        exact List.length_eq_zero_iff.mp (by omega)
      exact ⟨[], rfl, rfl⟩
    · have hlt : (S.place body).after.length < q.next.after.length :=
        Place.length_lt_of_mem_words (by decide) hlater
      have hlt' : (S.place body).after.length < q.after.length :=
        Nat.lt_of_lt_of_le hlt (Place.next_length_le q)
      obtain ⟨before', after⟩ := q
      obtain rfl : after = u ++ (S.place body).after := hu
      dsimp only at hclear' ⊢
      have hu : u ≠ [] := by
        rintro rfl
        simp at hlt'
      -- what is read there is read in front of the data
      have hread : Place.read? ⟨before', u ++ (S.place body).after⟩ =
          Place.read? ⟨before', u ++ (S.place body').after⟩ := by
        have hbefore := hclear _ List.mem_cons_self hlt'
        have hbefore' := hclear' _ List.mem_cons_self (by
          have := List.length_pos_iff.mpr hu
          simp only [List.length_append]
          omega)
        have hsplit : ∀ body, u ++ (S.place body).after = (u ++ S.opening) ++ S.tail body := fun _ =>
          (List.append_assoc _ _ _).symm
        rw [hsplit] at hbefore hbefore' ⊢
        rw [hsplit]
        exact Place.read?_front (fun h => hu (List.append_eq_nil_iff.mp h).1) hbefore hbefore'
      obtain ⟨before'', v, hnext, hnext'⟩ := Place.next_front hread (Nat.le_of_lt hlt) hend
      have hshorter : v.length < n := by
        have hv := Place.next_length_le ⟨before', u ++ (S.place body).after⟩
        have ht := Place.find?_length_lt (by decide) hfind
        rw [hnext] at hv
        simp only [List.length_append] at hv ht
        omega
      rw [hnext] at hlater hclear ⊢
      rw [hnext'] at hclear' ⊢
      obtain ⟨l, heq, heq'⟩ := ih v.length hshorter hlater
        (fun q hq => hclear q (List.mem_cons_of_mem _ hq))
        (fun q hq => hclear' q (List.mem_cons_of_mem _ hq)) rfl
      refine ⟨(Place.read? ⟨before', u ++ (S.place body).after⟩).toList ++ l, ?_, ?_⟩
      · rw [heq, List.append_assoc]
      · rw [heq', hread, List.append_assoc]

/-- **The data can be any other without a change to the definitions**, but for that of the stream. -/
theorem Holds.defined_eq (h : S.Holds body r d) (h' : S.Holds body' r d) (hc : S.Contained body)
    (hc' : S.Contained body') : ∃ l₁ l₂,
      (Place.start (S.bytes body)).defined = l₁ ++ streamOf r d body :: l₂ ∧
      (Place.start (S.bytes body')).defined = l₁ ++ streamOf r d body' :: l₂ := by
  have hend : endKeyword <:+: (S.place body).after := by
    obtain ⟨q, hfind, -⟩ := hc.closed
    obtain ⟨a, hafter, -, -⟩ := Place.of_find? hfind
    exact ⟨a, q.after, hafter.symm⟩
  obtain ⟨l, heq, heq'⟩ := defined_front h.reached hc.definitions hc'.definitions hend
  have hlater : (S.place body).next.defined = (S.place body').next.defined :=
    hc.next_eq (by rw [h.read?_eq]; rfl) (by rw [h'.read?_eq]; rfl) hc'
  refine ⟨l, (S.place body).next.defined, ?_, ?_⟩
  · exact heq.trans (by rw [h.read?_eq]; rfl)
  · exact heq'.trans (by rw [h'.read?_eq, hlater]; rfl)

/-- A word `trailer` that is not found in front of the data is found behind it. -/
theorem behind_of_clear {before t : Bytes}
    (hclear : ∀ q ∈ Place.trailerWords ⟨before, t ++ S.tail body⟩,
      q.after.length + trailerKeyword.length ≤ S.after.length ∨ q.TrailerBefore (S.tail body).length)
    (hfront : ¬ ∃ q, Place.find? trailerKeyword before (t ++ S.tail body) = some q ∧
      (S.tail body).length ≤ q.after.length) :
    (Place.trailers ⟨before, t ++ S.tail body⟩ = [] ∧ ¬ trailerKeyword <:+: S.after) ∨
      ∃ q, Place.find? trailerKeyword before ((t ++ body) ++ S.after) = some q ∧
        q.after.length + trailerKeyword.length ≤ S.after.length ∧
        Place.trailers ⟨before, t ++ S.tail body⟩ = q.dict?.toList ++ q.trailers := by
  have hsplit : t ++ S.tail body = (t ++ body) ++ S.after := by rw [tail, List.append_assoc]
  cases hfind : Place.find? trailerKeyword before (t ++ S.tail body) with
  | none =>
    refine .inl ⟨Place.trailers_of_last hfind, fun hword => ?_⟩
    refine Place.not_isInfix_of_find? (by decide) hfind (hword.trans ?_)
    rw [hsplit]
    exact (List.suffix_append _ _).isInfix
  | some q =>
    rw [Place.trailerWords_of_find? hfind] at hclear
    have hle := (hclear q List.mem_cons_self).resolve_right fun hbefore =>
      hfront ⟨q, hfind, hbefore.le⟩
    exact .inr ⟨q, hsplit ▸ hfind, hle, Place.trailers_of_find? hfind⟩

/-- Nor does it change the trailers. -/
theorem trailers_front {before t : Bytes}
    (hclear : ∀ q ∈ Place.trailerWords ⟨before, t ++ S.tail body⟩,
      q.after.length + trailerKeyword.length ≤ S.after.length ∨ q.TrailerBefore (S.tail body).length)
    (hclear' : ∀ q ∈ Place.trailerWords ⟨before, t ++ S.tail body'⟩,
      q.after.length + trailerKeyword.length ≤ S.after.length ∨
        q.TrailerBefore (S.tail body').length) :
    Place.trailers ⟨before, t ++ S.tail body⟩ = Place.trailers ⟨before, t ++ S.tail body'⟩ := by
  have hword : 0 < trailerKeyword.length := by decide
  have htail : ∀ body, S.after.length ≤ (S.tail body).length := by
    intro body
    rw [tail, List.length_append]
    omega
  obtain ⟨n, hn⟩ : ∃ n, n = t.length := ⟨_, rfl⟩
  induction n using Nat.strongRecOn generalizing before t with
  | ind n ih =>
    by_cases hfront : ∃ q, Place.find? trailerKeyword before (t ++ S.tail body) = some q ∧
        (S.tail body).length ≤ q.after.length
    · obtain ⟨⟨passed, after⟩, hfind, hle⟩ := hfront
      obtain ⟨u, hu, hfind'⟩ := Place.find?_front (by decide) hfind hle (S.tail body')
      obtain rfl : after = u ++ S.tail body := hu
      dsimp only at hfind'
      rw [Place.trailerWords_of_find? hfind] at hclear
      rw [Place.trailerWords_of_find? hfind'] at hclear'
      rw [Place.trailers_of_find? hfind, Place.trailers_of_find? hfind']
      -- what is read there is read in front of the data
      have hbefore := (hclear _ List.mem_cons_self).resolve_left (by
        have := htail body
        simp only [List.length_append]
        omega)
      have hbefore' := (hclear' _ List.mem_cons_self).resolve_left (by
        have := htail body'
        simp only [List.length_append]
        omega)
      have hshorter : u.length < n := by
        have := Place.find?_length_lt (by decide) hfind
        simp only [List.length_append] at this
        omega
      rw [Place.dict?_front hbefore hbefore', ih u.length hshorter
        (fun q hq => hclear q (List.mem_cons_of_mem _ hq))
        (fun q hq => hclear' q (List.mem_cons_of_mem _ hq)) rfl]
    · have hfront' : ¬ ∃ q, Place.find? trailerKeyword before (t ++ S.tail body') = some q ∧
          (S.tail body').length ≤ q.after.length := by
        rintro ⟨q, hfind, hle⟩
        obtain ⟨u, -, hfind'⟩ := Place.find?_front (by decide) hfind hle (S.tail body)
        refine hfront ⟨_, hfind', ?_⟩
        rw [List.length_append]
        omega
      -- so both go on behind the data, where they find the same
      have hbehind := behind_of_clear hclear hfront
      have hbehind' := behind_of_clear hclear' hfront'
      have hword : ∀ {c : Bytes} {q : Place},
          Place.find? trailerKeyword before (c ++ S.after) = some q →
          q.after.length + trailerKeyword.length ≤ S.after.length → trailerKeyword <:+: S.after := by
        intro c q hfind hle
        obtain ⟨a, hafter, -, -⟩ := Place.of_find? hfind
        obtain ⟨g, -, hg⟩ := occurrence_behind hafter hle
        exact ⟨g, q.after, hg.symm⟩
      rcases hbehind with ⟨heq, hnone⟩ | ⟨⟨b, x⟩, hfind, hle, heq⟩ <;>
        rcases hbehind' with ⟨heq', hnone'⟩ | ⟨⟨b', x'⟩, hfind', hle', heq'⟩
      · rw [heq, heq']
      · exact absurd (hword hfind' hle') hnone
      · exact absurd (hword hfind hle) hnone'
      · obtain rfl : x = x' := Place.find?_behind hfind hfind' hle hle'
        rw [heq, heq', Place.trailers_before b b']
        rfl

/-- **What the file contains is the same whatever the data is**, but for the stream itself. -/
theorem contents (h : S.Holds body r d) (h' : S.Holds body' r d) (hc : S.Contained body)
    (hc' : S.Contained body') {c : Contents} (hof : c.Of (S.bytes body)) : ∃ l₁ l₂,
      c.plain = l₁ ++ (r, .stream d body (some r)) :: l₂ ∧
      Contents.Of ⟨l₁ ++ (r, .stream d body' (some r)) :: l₂, c.trailers⟩ (S.bytes body') := by
  obtain ⟨l₁, l₂, hplain, hplain'⟩ := h.defined_eq h' hc hc'
  have htrailers : (Place.start (S.bytes body)).trailers = (Place.start (S.bytes body')).trailers := by
    have hsplit : ∀ body, Place.start (S.bytes body) =
        ⟨[], (S.before ++ keyword ++ S.opening) ++ S.tail body⟩ := by
      intro body
      rw [Place.start, bytes, List.append_assoc (S.before ++ keyword)]
    have hclear := hc.trailers
    have hclear' := hc'.trailers
    unfold TrailersBeside at hclear hclear'
    rw [hsplit] at hclear hclear' ⊢
    rw [hsplit]
    exact trailers_front hclear hclear'
  -- nothing of it ends the scan, so there is room for the data, and the other data is as long
  obtain ⟨es₁, rest, hes, rfl, hrest⟩ := List.map_eq_append_iff.mp (hof.plain.symm.trans hplain)
  obtain ⟨e, es₂, rfl, he, rfl⟩ := List.map_eq_cons_iff.mp hrest
  have hroom : StreamBody.hasRoom (some body.length) = true := by
    by_contra hnone
    rw [streamOf, if_neg hnone] at he
    cases he
  have hlength : some body'.length = some body.length := h'.measured.symm.trans h.measured
  rw [streamOf_eq hroom] at he
  rw [streamOf_eq (hlength ▸ hroom)] at hplain'
  cases he
  refine ⟨es₁, es₂, hes, ?_, ?_⟩
  · rw [hplain', List.map_append, List.map_cons]
  · exact htrailers.symm.trans hof.trailers

end Slot

end PdfScene.Scan
