import PdfScene.Proofs.Lexical.Closing
import PdfScene.Proofs.Lexical.StreamBody
import PdfScene.Proofs.Object.Locality
import PdfScene.Proofs.Object.Writing

/-!
# Streams are read with their bodies

Take a dictionary that stands alone, and put `stream`, a body and `endstream` behind it. What is read
is a stream with that dictionary and that body, and reading goes on behind the mark
(`DictSource.readObject_stream`).

Up to its last bracket the dictionary is cut into the same tokens (`Delivers.extend`), so the reader
takes the same steps (`step_along`): the tokens in view differ only at the end, and there the dictionary
alone leaves nothing to be done but to close it, since at the end of the input no other container could
give a dictionary (`run_end_ne_dict`).
-/

set_option autoImplicit false

namespace PdfScene

namespace Token

/-- Two angle brackets are all that an end mark can be. -/
theorem scanFrom_eq_dictEnd {c : UInt8} {rest : Bytes} (h : scanFrom c rest = (.ok .dictEnd, [])) :
    c = 0x3E ∧ rest = [0x3E] := by
  have hword : ∀ word, ofWord word ≠ .dictEnd := by
    intro word
    unfold ofWord
    dsimp only
    repeat' split
    all_goals nofun
  unfold scanFrom at h
  split at h
  · cases h
  split at h
  · cases h
  split at h
  · cases h
  split at h
  · cases h
  split at h
  · cases h
  split at h
  · split at h <;> cases h
  split at h
  · rename_i hclose
    split at h
    · rename_i hsecond
      cases rest with
      | nil => cases hsecond
      | cons d rest =>
        simp only [List.head?_cons, beq_iff_eq, Option.some.injEq] at hclose hsecond
        simp only [List.tail_cons, Prod.mk.injEq, true_and] at h
        exact ⟨hclose, by rw [hsecond, h]⟩
    · cases h
  split at h
  · cases h
  split at h
  · cases h
  · unfold scanWord at h
    dsimp only at h
    split at h
    · cases h
    · simp only [Prod.mk.injEq, Except.ok.injEq] at h
      exact absurd h.1 (hword _)

end Token

namespace Lookahead

variable {bs bs' rest w : Bytes} {t u : Token} {ts us : List Token} {v v' : Lookahead}
  {stack : List Frame} {d : Dict}

/-! ## The tokens of a dictionary with more behind it -/

/-- The last token of a dictionary is the same whatever comes behind it. -/
theorem nextToken_dictEnd (h : nextToken bs = (.dictEnd, [])) :
    ∃ s, bs = s ++ [0x3E] ∧ ∀ w, nextToken (s ++ 0x3E :: w) = (.dictEnd, w) := by
  fun_induction nextToken bs with
  | case1 bs t rest hscan =>
    cases h
    cases hs : Token.skipBlanks false bs with
    | nil =>
      rw [Token.scan_nil hs] at hscan
      cases hscan
    | cons c after =>
      rw [Token.scan_cons hs] at hscan
      obtain ⟨rfl, rfl⟩ := Token.scanFrom_eq_dictEnd hscan
      have hsuffix : [0x3E, 0x3E] <:+ bs := hs ▸ (Token.skipBlanks_local false).suffix bs
      obtain ⟨front, rfl⟩ := hsuffix
      refine ⟨front ++ [0x3E], by simp, fun w => ?_⟩
      have hskip : Token.skipBlanks false (front ++ [0x3E] ++ 0x3E :: w) = 0x3E :: 0x3E :: w :=
        Token.skipBlanks_append (t := []) (w := [0x3E]) (by simpa using hs) (0x3E :: w)
      rw [nextToken_eq, Token.scan_cons hskip]
      rfl
  | case2 bs fault rest hscan ih =>
    obtain ⟨s, rfl, hnext⟩ := ih h
    have hsuffix : s ++ [0x3E] <:+ bs := by
      have hlocal := Token.scan_local.suffix bs
      rwa [hscan] at hlocal
    obtain ⟨front, rfl⟩ := hsuffix
    refine ⟨front ++ s, by simp, fun w => ?_⟩
    rw [← List.append_assoc] at hscan
    rw [nextToken_eq, Token.scan_closing hscan]
    exact hnext w

theorem Delivers.ends (h : Delivers bs (ts ++ [.dictEnd]) []) : ∃ s, bs = s ++ [0x3E] := by
  induction ts generalizing bs with
  | nil =>
    cases h with
    | cons hnext _ hend =>
      obtain rfl := hend.nil_eq
      obtain ⟨s, hs, -⟩ := nextToken_dictEnd hnext
      exact ⟨s, hs⟩
  | cons t ts ih =>
    cases h with
    | @cons _ bs' _ _ _ hnext _ hts =>
      obtain ⟨s, rfl⟩ := ih hts
      have hsuffix := nextToken_local.suffix bs
      rw [hnext] at hsuffix
      obtain ⟨front, rfl⟩ := hsuffix
      exact ⟨front ++ s, by simp⟩

/-- **The tokens of a dictionary are the same whatever comes behind it.** -/
theorem Delivers.extend (h : Delivers bs (ts ++ [.dictEnd]) []) (w : Bytes) :
    Delivers (bs ++ w) (ts ++ [.dictEnd]) w := by
  induction ts generalizing bs with
  | nil =>
    cases h with
    | cons hnext _ hend =>
      obtain rfl := hend.nil_eq
      obtain ⟨s, rfl, hmore⟩ := nextToken_dictEnd hnext
      have hnext' := hmore w
      rw [← List.singleton_append, ← List.append_assoc] at hnext'
      exact .cons hnext' nofun (.nil w)
  | cons t ts ih =>
    obtain ⟨s, rfl⟩ := h.ends
    cases h with
    | @cons _ bs' _ _ _ hnext hmore hts =>
      have hrest := ih hts
      obtain ⟨s', rfl⟩ := hts.ends
      have hnext' := nextToken_closing hnext w
      rw [List.append_assoc, List.singleton_append] at hrest ⊢
      exact .cons hnext' hmore hrest

/-! ## Steps over the same tokens -/

/-- Two views of the same tokens, which end in the mark of a dictionary, with nothing and with `w` behind
them. -/
def Along (w : Bytes) (ts : List Token) (v v' : Lookahead) : Prop :=
  ∃ bs bs', v = ofBytes bs ∧ v' = ofBytes bs' ∧ Delivers bs (ts ++ [.dictEnd]) [] ∧
    Delivers bs' (ts ++ [.dictEnd]) w

/-- Two steps that do the same over the same tokens, and leave some of them. -/
inductive Outcome.Along (w : Bytes) (ts : List Token) : Outcome → Outcome → Prop where
  | more {us : List Token} {v v' : Lookahead} (stack : List Frame) (hleft : us <:+ ts)
      (h : Lookahead.Along w us v v') : Along w ts (.more stack v) (.more stack v')
  | done {us : List Token} {v v' : Lookahead} (result : Except Error Obj) (hleft : us <:+ ts)
      (h : Lookahead.Along w us v v') : Along w ts (.done result v) (.done result v')

namespace Along

theorem first (h : Along w (t :: ts) v v') : v.first = t ∧ v'.first = t := by
  obtain ⟨bs, bs', rfl, rfl, hts, hts'⟩ := h
  exact ⟨hts.first, hts'.first⟩

theorem shift (h : Along w (t :: ts) v v') : Along w ts v.shift v'.shift := by
  obtain ⟨bs, bs', rfl, rfl, hts, hts'⟩ := h
  obtain ⟨next, hshift, hnext⟩ := hts.shift
  obtain ⟨next', hshift', hnext'⟩ := hts'.shift
  exact ⟨next, next', hshift, hshift', hnext, hnext'⟩

/-- Some token is in front, and the same one. -/
theorem first_eq (h : Along w ts v v') : v'.first = v.first := by
  obtain ⟨bs, bs', rfl, rfl, hts, hts'⟩ := h
  cases ts with
  | nil => rw [hts.first, hts'.first]
  | cons t ts => rw [hts.first, hts'.first]

theorem second_eq (h : Along w (t :: ts) v v') : v'.second = v.second := by
  obtain ⟨bs, bs', rfl, rfl, hts, hts'⟩ := h
  cases ts with
  | nil => rw [hts.second, hts'.second]
  | cons u ts => rw [hts.second, hts'.second]

theorem first_nil (h : Along w [] v v') : v.first = .dictEnd ∧ v'.first = .dictEnd := by
  obtain ⟨bs, bs', rfl, rfl, hts, hts'⟩ := h
  exact ⟨hts.first, hts'.first⟩

theorem second_nil (h : Along w [t] v v') : v.second = .dictEnd := by
  obtain ⟨bs, bs', rfl, rfl, hts, hts'⟩ := h
  exact hts.second

end Along

theorem settle_along (h : Along w us v v') (hleft : us <:+ ts) (result : Except ObjectFault Obj)
    (stack : List Frame) : (settle result v stack).Along w ts (settle result v' stack) := by
  induction stack with
  | nil => exact .done (result.mapError .object) hleft h
  | cons frame stack ih =>
    cases frame <;> cases result <;> first | exact ih | exact .more _ hleft h

/-- A reference is one in both views, as the last mark is no part of it. -/
theorem number_along (h : Along w ts v v') (x : Float) : (number x v').1 = (number x v).1 ∧
    ∃ us, us <:+ ts ∧ Along w us (number x v).2 (number x v').2 := by
  have hsame (hv : number x v = (.num x, v)) (hv' : number x v' = (.num x, v')) :
      (number x v').1 = (number x v).1 ∧
        ∃ us, us <:+ ts ∧ Along w us (number x v).2 (number x v').2 := by
    rw [hv, hv']
    exact ⟨rfl, ts, List.suffix_refl ts, h⟩
  match ts with
  | [] =>
    refine hsame (number_eq fun g _ _ hfirst => ?_) (number_eq fun g _ _ hfirst => ?_)
    · rw [h.first_nil.1] at hfirst
      cases hfirst
    · rw [h.first_nil.2] at hfirst
      cases hfirst
  | u :: us =>
    have hsecond := h.second_eq
    by_cases href : ∃ g, u = .num g ∧ v.second = .word "R" ∧ 0 ≤ x ∧ 0 ≤ g
    · obtain ⟨g, rfl, hword, hx, hg⟩ := href
      cases us with
      | nil =>
        rw [h.second_nil] at hword
        cases hword
      | cons word us =>
        have hnumber {view : Lookahead} (hfirst : view.first = .num g)
            (hword : view.second = .word "R") :
            number x view = (.ref ⟨x.toUInt32, g.toUInt32⟩, view.shift.shift) := by
          simp [number, hfirst, hword, hx, hg]
        rw [hnumber h.first.1 hword, hnumber h.first.2 (hsecond.trans hword)]
        exact ⟨rfl, us, List.suffix_append [_, _] us, h.shift.shift⟩
    · refine hsame (number_eq fun g hx hg hfirst hword => href ?_)
        (number_eq fun g hx hg hfirst hword => href ?_)
      · exact ⟨g, h.first.1.symm.trans hfirst, hword, hx, hg⟩
      · exact ⟨g, h.first.2.symm.trans hfirst, hsecond.symm.trans hword, hx, hg⟩

theorem opening_along (h : Along w (t :: ts) v v') (stack : List Frame) :
    (opening stack v).Along w ts (opening stack v') := by
  have hshift := h.shift
  unfold opening
  dsimp only
  rw [h.first.1, h.first.2]
  cases t with
  | num x =>
    obtain ⟨hvalue, us, hleft, hus⟩ := number_along hshift x
    dsimp only
    rw [hvalue]
    exact settle_along hus hleft _ stack
  | arrayStart => exact .more _ (List.suffix_refl ts) hshift
  | dictStart => exact .more _ (List.suffix_refl ts) hshift
  | _ => exact settle_along hshift (List.suffix_refl ts) _ stack

theorem close_along (h : Along w (t :: ts) v v') (hstream : v.second ≠ .word "stream") (d : Dict)
    (stack : List Frame) : (close d stack v).Along w ts (close d stack v') := by
  rw [close_eq d stack hstream, close_eq d stack (by rwa [h.second_eq])]
  exact settle_along h.shift (List.suffix_refl ts) _ stack

/-- No token is the end of the input. -/
theorem Along.ne_eof (h : Along w (t :: ts) v v') : t ≠ .eof := by
  obtain ⟨bs, bs', rfl, rfl, hts, -⟩ := h
  cases hts with
  | cons _ hmore => exact hmore

/-- **The reader takes the same step**, unless it closes a stream. -/
theorem step_along (h : Along w (t :: ts) v v')
    (hstream : ∀ d outer, stack = .dict d :: outer → ¬ v.OnStream) :
    (step stack v).Along w ts (step stack v') := by
  have hfirst := h.first
  have hleft := List.suffix_refl ts
  match stack with
  | [] => exact opening_along h []
  | .entry d key :: outer => exact opening_along h _
  | .array items :: outer =>
    cases t with
    | eof => exact absurd rfl h.ne_eof
    | arrayEnd =>
      simp only [step, hfirst]
      exact settle_along h.shift hleft _ outer
    | dictEnd =>
      simp only [step, hfirst]
      exact .more _ hleft h.shift
    | _ =>
      simp only [step, hfirst]
      exact opening_along h _
  | .dict d :: outer =>
    cases t with
    | eof => exact absurd rfl h.ne_eof
    | dictEnd =>
      simp only [step, hfirst]
      exact close_along h (fun hword => hstream d outer rfl ⟨hfirst.1, hword⟩) d outer
    | name key =>
      simp only [step, hfirst, h.shift.first_eq]
      cases v.shift.first <;> exact .more _ hleft h.shift
    | _ =>
      simp only [step, hfirst]
      exact .more _ hleft h.shift

/-! ## The end of the input -/

/-- Where a step leads at the end of the input: containers are left open, or the run ends, in a
dictionary only if that has the property. -/
def Outcome.Ends (P : Dict → Prop) : Outcome → Prop
  | .more stack v => stack ≠ [] ∧ v = ofBytes []
  | .done result v => v = ofBytes [] ∧ ∀ d, result = .ok (.dict d) → P d

theorem settle_ends {P : Dict → Prop} {result : Except ObjectFault Obj}
    (h : ∀ d, result = .ok (.dict d) → P d) (stack : List Frame) :
    (settle result (ofBytes []) stack).Ends P := by
  induction stack with
  | nil =>
    refine ⟨rfl, fun d hd => ?_⟩
    cases result with
    | error e => cases hd
    | ok o =>
      cases hd
      exact h d rfl
  | cons frame stack ih =>
    cases frame <;> cases result <;> first | exact ih | exact ⟨List.cons_ne_nil _ _, rfl⟩

/-- Where one value ends the run any other does. -/
theorem settle_done {o : Obj} {result : Except Error Obj}
    (h : settle (.ok o) v stack = .done result v') (o' : Obj) (view : Lookahead) :
    settle (.ok o') view stack = .done (.ok o') view := by
  induction stack with
  | nil => rfl
  | cons frame stack ih =>
    cases frame with
    | dict d => exact ih h
    | array items => cases h
    | entry d key => cases h

theorem nextToken_nil : nextToken [] = (.eof, []) := by
  rw [nextToken_eq]
  rfl

theorem step_end (hstack : stack ≠ []) : (step stack (ofBytes [])).Ends fun _ => False := by
  have hfirst : (ofBytes []).first = .eof := ofBytes_first nextToken_nil
  have hshift : (ofBytes []).shift = ofBytes [] := shift_ofBytes nextToken_nil
  rcases stack with _ | ⟨frame, outer⟩
  · exact absurd rfl hstack
  · cases frame with
    | array items =>
      simp only [step, hfirst]
      exact settle_ends (by simp) outer
    | dict d =>
      simp only [step, hfirst]
      exact settle_ends (by simp) outer
    | entry d key =>
      simp only [step, opening, hfirst, hshift]
      exact settle_ends (by simp) _

/-- At the end of the input an open container is no dictionary that is read. -/
theorem run_end_ne_dict (hstack : stack ≠ []) : (run stack (ofBytes [])).1 ≠ .ok (.dict d) := by
  generalize hview : ofBytes [] = view
  fun_induction run stack view with
  | case1 stack view result view' hstep =>
    subst hview
    have hends := step_end hstack
    rw [hstep] at hends
    exact hends.2 d
  | case2 stack view stack' view' hstep ih =>
    subst hview
    have hends := step_end hstack
    rw [hstep] at hends
    exact ih hends.1 hends.2.symm

/-! ## Dictionaries with a body behind them -/

/-- What is in view when only the last mark is left. -/
theorem Along.last (h : Along w [] v v') : v.shift = ofBytes [] ∧ v.second = .eof ∧
    v' = ⟨.dictEnd, (nextToken w).1, (nextToken w).2⟩ := by
  obtain ⟨bs, bs', rfl, rfl, hts, hts'⟩ := h
  cases hts with
  | cons hnext _ hend =>
  cases hts' with
  | cons hnext' _ hend' =>
  obtain rfl := hend.nil_eq
  obtain rfl := hend'.nil_eq
  refine ⟨shift_ofBytes hnext, ?_, ?_⟩
  · rw [ofBytes_second hnext, ofBytes_first nextToken_nil]
  · simp [ofBytes, hnext']

theorem Along.ne_end (h : Along w ts v v') : v ≠ ofBytes [] := by
  rintro rfl
  obtain ⟨bs, bs', hv, -, hts, -⟩ := h
  have hfirst : (ofBytes bs).first = .eof := hv ▸ ofBytes_first nextToken_nil
  cases ts with
  | nil =>
    cases hts with
    | cons hnext hmore => exact hmore ((ofBytes_first hnext).symm.trans hfirst)
  | cons t ts =>
    cases hts with
    | cons hnext hmore => exact hmore ((ofBytes_first hnext).symm.trans hfirst)

/-- The last mark of a dictionary closes it, if that is all that is left to be done. -/
theorem step_last (h : Along w [] v v') : (step stack v).Ends fun d =>
    ∃ outer, stack = .dict d :: outer ∧
      settle (.ok (.dict d)) (ofBytes []) outer = .done (.ok (.dict d)) (ofBytes []) := by
  obtain ⟨hshift, hsecond, -⟩ := h.last
  have hfirst := h.first_nil.1
  rcases stack with _ | ⟨frame, outer⟩
  · simp only [step, opening, hfirst, hshift]
    exact settle_ends (by simp) _
  · cases frame with
    | entry d key =>
      simp only [step, opening, hfirst, hshift]
      exact settle_ends (by simp) _
    | array items =>
      simp only [step, hfirst, hshift]
      exact ⟨List.cons_ne_nil _ _, rfl⟩
    | dict d =>
      have hstep : step (.dict d :: outer) v = settle (.ok (.dict d)) (ofBytes []) outer := by
        simp only [step, hfirst]
        rw [close_eq d outer (by simp [hsecond]), hshift]
      have hends : (settle (.ok (.dict d)) (ofBytes []) outer).Ends fun _ => True :=
        settle_ends (by simp) outer
      rw [hstep]
      cases hsettle : settle (.ok (.dict d)) (ofBytes []) outer with
      | more s view =>
        rw [hsettle] at hends
        exact hends
      | done result view =>
        have hdone := settle_done hsettle (.dict d) (ofBytes [])
        rw [hsettle] at hdone
        cases hdone
        refine ⟨rfl, fun d' hd => ?_⟩
        cases hd
        exact ⟨outer, rfl, hsettle⟩

/-- What a dictionary is read as with `stream` and more behind it: a stream, if there can be room for
its body. -/
def readBody (d : Dict) (behind : Bytes) : Except Error Obj × Lookahead :=
  match StreamBody.scan (statedLength d) behind with
  | .ok (data, rest) => (.ok (.stream d data none), ofBytes rest)
  | .error p => (.error (.panic p), ⟨.dictEnd, .word "stream", behind⟩)

/-- **A run that comes to a dictionary comes to its stream if a body stands behind it.** -/
theorem run_along {behind : Bytes} (hw : nextToken w = (.word "stream", behind)) (h : Along w ts v v')
    (hstream : ∀ d outer view, Leads stack v (.dict d :: outer) view → ¬ view.OnStream)
    (hrun : run stack v = (.ok (.dict d), ofBytes [])) :
    run stack v' = readBody d behind := by
  fun_induction run stack v generalizing ts v' with
  | case1 stack v result view hstep =>
    obtain ⟨rfl, rfl⟩ := Prod.mk.inj hrun
    cases ts with
    | cons t ts =>
      have halong := step_along h fun d outer hstack => hstream d outer v (hstack ▸ .refl _ _)
      rw [hstep] at halong
      generalize step stack v' = next at halong
      cases halong with
      | done _ _ hview => exact absurd rfl hview.ne_end
    | nil =>
      have hends : (step stack v).Ends _ := step_last h
      rw [hstep] at hends
      obtain ⟨outer, rfl, hsettle⟩ := hends.2 d rfl
      have hview := h.last.2.2
      rw [hw] at hview
      subst hview
      rw [run_eq]
      cases hscan : StreamBody.scan (statedLength d) behind with
      | ok body =>
        simp only [step, close, if_true, readBody, hscan, settle_done hsettle, Outcome.result]
      | error p => simp only [step, close, if_true, readBody, hscan, Outcome.result]
  | case2 stack v stack' view hstep ih =>
    cases ts with
    | cons t ts =>
      have halong := step_along h fun d outer hstack => hstream d outer v (hstack ▸ .refl _ _)
      rw [hstep] at halong
      rcases hnext : step stack v' with ⟨stack'', view'⟩ | ⟨result, view'⟩ <;> rw [hnext] at halong
      · cases halong with
        | more _ _ hview =>
          rw [run_of_more hnext]
          exact ih hview (fun d outer view hleads => hstream d outer view (.step hstep hleads)) hrun
      · cases halong
    | nil =>
      have hends : (step stack v).Ends _ := step_last h
      rw [hstep] at hends
      obtain ⟨hstack, rfl⟩ := hends
      exact absurd (congrArg Prod.fst hrun) (run_end_ne_dict hstack)

/-- Where no `stream` stands behind the end mark of a dictionary, the reader comes to no stream. -/
theorem not_onStream {view : Lookahead} {outer : List Frame} {stack' : List Frame}
    (hts : ¬ [.dictEnd, .word "stream"] <:+: ts) (hv : v = ofBytes [] ∨ ∃ us, us <:+ ts ∧ Along [] us v v)
    (h : Leads stack v stack' view) : stack' = .dict d :: outer → ¬ view.OnStream := by
  have hnow {v : Lookahead} (hv : v = ofBytes [] ∨ ∃ us, us <:+ ts ∧ Along [] us v v) :
      ¬ v.OnStream := by
    rintro ⟨hfirst, hsecond⟩
    rcases hv with rfl | ⟨us, hleft, halong⟩
    · rw [ofBytes_first nextToken_nil] at hfirst
      cases hfirst
    · match us with
      | [] =>
        rw [halong.last.2.1] at hsecond
        cases hsecond
      | [t] =>
        rw [halong.second_nil] at hsecond
        cases hsecond
      | t :: u :: us =>
        have hword : v.second = u := by
          obtain ⟨bs, -, rfl, -, htokens, -⟩ := halong
          exact htokens.second
        obtain rfl := halong.first.1.symm.trans hfirst
        obtain rfl := hword.symm.trans hsecond
        exact hts ((List.prefix_append [_, _] us).isInfix.trans hleft.isInfix)
  induction h with
  | refl => exact fun _ => hnow hv
  | @step stack stack' _ v view _ hstep _ ih =>
    refine ih ?_
    have hclear := hnow hv
    rcases hv with rfl | ⟨us, hleft, halong⟩
    · by_cases hstack : stack = []
      · subst hstack
        simp [Lookahead.step, opening, ofBytes_first nextToken_nil, settle] at hstep
      · have hends := step_end hstack
        rw [hstep] at hends
        exact .inl hends.2
    · cases us with
      | nil =>
        have hends : (step stack v).Ends _ := step_last halong
        rw [hstep] at hends
        exact .inl hends.2
      | cons u us =>
        have hnext : (step stack v).Along [] us (step stack v) :=
          step_along halong fun _ _ _ => hclear
        rw [hstep] at hnext
        cases hnext with
        | more _ hleft' hview =>
          exact .inr ⟨_, hleft'.trans ((List.suffix_cons u us).trans hleft), hview⟩

/-- The bytes of a dictionary from its first bracket to its last, with no stream in it. -/
structure DictSource (source : Bytes) (d : Dict) : Prop where
  tokens : ∃ ts, Delivers source (ts ++ [.dictEnd]) []
  value : readObject (ofBytes source) = (.ok (.dict d), ofBytes [])
  noStream : ∀ d outer view, Leads [] (ofBytes source) (.dict d :: outer) view → ¬ view.OnStream

theorem DictSource.of_tokens {source : Bytes} (htokens : Delivers source (ts ++ [.dictEnd]) [])
    (hvalue : readObject (ofBytes source) = (.ok (.dict d), ofBytes []))
    (hstream : ¬ [.dictEnd, .word "stream"] <:+: ts) : DictSource source d :=
  ⟨⟨ts, htokens⟩, hvalue, fun _ _ _ hleads =>
    not_onStream hstream (.inr ⟨ts, List.suffix_refl ts, _, _, rfl, rfl, htokens, htokens⟩) hleads rfl⟩

/-- The word in front of a body. -/
def streamKeyword : Bytes := Bytes.ofAscii "stream"

/-- Blanks and comments before the word do not matter, and a line break ends it. -/
theorem nextToken_streamKeyword {gap eol : Bytes}
    (hgap : Token.skipBlanks false (gap ++ streamKeyword) = streamKeyword)
    (heol : StreamBody.LineBreak eol) (bs : Bytes) :
    nextToken (gap ++ (streamKeyword ++ (eol ++ bs))) = (.word "stream", eol ++ bs) := by
  have hskip : Token.skipBlanks false (gap ++ streamKeyword ++ (eol ++ bs)) =
      0x73 :: (Bytes.ofAscii "tream" ++ (eol ++ bs)) :=
    Token.skipBlanks_append (t := Bytes.ofAscii "tream") (w := [])
      (by rw [List.append_nil, hgap]; rfl) (eol ++ bs)
  have hword : Token.scanFrom 0x73 (Bytes.ofAscii "tream") = (.ok (.word "stream"), []) := by cbv
  have hbreaks : ∀ e, Byte.endsToken e = true →
      BreaksAt e (Token.scanFrom 0x73) (Bytes.ofAscii "tream") := fun e he =>
    Token.scanFrom_breaksAt he (by rfl) (by rfl) (.inr (by rfl)) (.inr (by decide))
  have hscan : Token.scanFrom 0x73 (Bytes.ofAscii "tream" ++ (eol ++ bs)) =
      (.ok (.word "stream"), eol ++ bs) := by
    cases heol with
    | lf => rw [List.singleton_append, hbreaks 0x0A rfl, hword]; rfl
    | crlf => rw [List.cons_append, hbreaks 0x0D rfl, hword]; rfl
  rw [← List.append_assoc, nextToken_eq, Token.scan_cons hskip, hscan]

/-- What stands behind a dictionary and the word `stream` is read as its body. -/
theorem DictSource.readObject_behind {source gap eol : Bytes} (h : DictSource source d)
    (hgap : Token.skipBlanks false (gap ++ streamKeyword) = streamKeyword)
    (heol : StreamBody.LineBreak eol) (bs : Bytes) :
    readObject (ofBytes (source ++ (gap ++ (streamKeyword ++ (eol ++ bs))))) =
      readBody d (eol ++ bs) := by
  obtain ⟨ts, hts⟩ := h.tokens
  exact run_along (nextToken_streamKeyword hgap heol bs) ⟨_, _, rfl, rfl, hts, hts.extend _⟩ h.noStream
    h.value

/-- **A body behind a dictionary is read verbatim, as that of a stream with this dictionary**, and
reading goes on behind its mark, if there can be room for as many bytes as the dictionary states. If
there cannot, the body is not looked at, and the program ends. -/
theorem DictSource.readObject_stream {source gap eol eol' data rest : Bytes} {d : Dict}
    (h : DictSource source d) (hgap : Token.skipBlanks false (gap ++ streamKeyword) = streamKeyword)
    (hopen : StreamBody.LineBreak eol) (hclose : StreamBody.LineBreak eol')
    (hbody : StreamBody.Findable (statedLength d) data eol' rest) :
    let read := readObject (ofBytes (source ++ (gap ++ (streamKeyword ++
      (eol ++ (data ++ StreamBody.closing eol' rest))))))
    (StreamBody.hasRoom (statedLength d) = true →
      read = (.ok (.stream d data none), ofBytes rest)) ∧
    (StreamBody.hasRoom (statedLength d) = false →
      read.1 = .error (.panic .capacityOverflow)) := by
  intro read
  have hstream : read = readBody d (eol ++ (data ++ StreamBody.closing eol' rest)) :=
    h.readObject_behind hgap hopen _
  rw [hstream]
  refine ⟨fun hroom => ?_, fun hroom => ?_⟩
  · rw [readBody, StreamBody.scan_body hopen hclose hbody hroom]
  · rw [readBody, StreamBody.scan_of_not_hasRoom hroom]

def nine : Digits := ⟨[0x39], by simp, by simp [Byte.isDigit]⟩

theorem nine_value : nine.value = 9 := by rfl

/-- A dictionary that states a length, the number in front of its end, is one alone. -/
theorem DictSource.length {number : Bytes} {x : Float}
    (hnumber : nextToken (0x20 :: (number ++ Bytes.ofAscii " >>")) = (.num x, Bytes.ofAscii " >>")) :
    DictSource (Bytes.ofAscii "<</Length" ++ 0x20 :: (number ++ Bytes.ofAscii " >>"))
      [("Length", .num x)] := by
  have h₁ : nextToken (Bytes.ofAscii "<</Length" ++ 0x20 :: (number ++ Bytes.ofAscii " >>")) =
      (.dictStart, Bytes.ofAscii "/Length" ++ 0x20 :: (number ++ Bytes.ofAscii " >>")) := by
    rw [nextToken_eq]
    rfl
  have h₂ : nextToken (Bytes.ofAscii "/Length" ++ 0x20 :: (number ++ Bytes.ofAscii " >>")) =
      (.name "Length", 0x20 :: (number ++ Bytes.ofAscii " >>")) := by
    rw [nextToken_eq]
    cbv
  have h₄ : nextToken (Bytes.ofAscii " >>") = (.dictEnd, []) := by cbv
  have htokens : Delivers (Bytes.ofAscii "<</Length" ++ 0x20 :: (number ++ Bytes.ofAscii " >>"))
      ([.dictStart, .name "Length", .num x] ++ [.dictEnd]) [] :=
    .cons h₁ (by simp) <| .cons h₂ (by simp) <| .cons hnumber (by simp) <| .cons h₄ (by simp) <| .nil _
  have hentries : ∀ e ∈ [("Length", Obj.num x, [Token.num x])], ReadsAs e.2.2 e.2.1 := by
    simpa using readsAs_atom rfl
  have hrun := (readsAs_dict hentries (by simp)).run [] trivial htokens
    (by simp [Obj.EndsBefore, ofBytes_first nextToken_nil])
  refine .of_tokens htokens ?_ fun hin => ?_
  · rw [readObject, hrun]
    rfl
  · have hmem := hin.subset (List.mem_cons_self)
    simp at hmem

/-- The number that twenty nines are read as. -/
def twentyNines : Float := (Numeral.scan (0x39 :: Bytes.ofAscii "9999999999999999999 >>")).1

theorem nextToken_twentyNines :
    nextToken (0x20 :: (Bytes.ofAscii "99999999999999999999" ++ Bytes.ofAscii " >>")) =
      (.num twentyNines, Bytes.ofAscii " >>") := by
  have hbytes : Bytes.ofAscii "99999999999999999999" ++ Bytes.ofAscii " >>" =
      0x39 :: Bytes.ofAscii "9999999999999999999 >>" := by
    decide +kernel
  have hrest : (Numeral.scan (0x39 :: Bytes.ofAscii "9999999999999999999 >>")).2 =
      Bytes.ofAscii " >>" := by
    decide +kernel
  rw [nextToken_space, hbytes, nextToken_numeral rfl, hrest, twentyNines]

/-- A body that is a mark itself with its length stated, and one of three bytes for which more room is
asked than there can be. -/
theorem DictSource.readObject_stream_nine :
    readObject (ofBytes (Bytes.ofAscii "<</Length 9 >>stream\nendstream\nendstream f")) =
      (.ok (.stream [("Length", .num (Whole.double 9))] (Bytes.ofAscii "endstream") none),
        ofBytes (Bytes.ofAscii " f")) ∧
    (readObject (ofBytes (Bytes.ofAscii
      "<</Length 99999999999999999999 >>stream\nABC\nendstream f"))).1 =
        .error (.panic .capacityOverflow) := by
  have hexact : nine.value < 2 ^ 53 := by
    rw [nine_value]
    omega
  have hsource : DictSource (Bytes.ofAscii "<</Length 9 >>") [("Length", .num (Whole.double 9))] :=
    .length ((nextToken_space _).trans (nextToken_digits nine hexact (Bytes.ofAscii ">>")))
  have hlength : statedLength [("Length", .num (Whole.double 9))] = some 9 := by
    show (if 0 ≤ Whole.double 9 then some (Whole.double 9).toUInt64.toNat else none) = some 9
    rw [if_pos (Whole.zero_le_double (by omega)), Whole.toUInt64_double (by omega)]
  have hbody : StreamBody.Findable (statedLength [("Length", .num (Whole.double 9))])
      (Bytes.ofAscii "endstream") [0x0A] (Bytes.ofAscii " f") :=
    .measured hlength
  have hroom : StreamBody.hasRoom (statedLength [("Length", .num (Whole.double 9))]) = true := by
    rw [hlength]
    rfl
  have hsource' : DictSource (Bytes.ofAscii "<</Length 99999999999999999999 >>")
      [("Length", .num twentyNines)] := .length nextToken_twentyNines
  have hlength' : statedLength [("Length", .num twentyNines)] = some 0xFFFFFFFFFFFFFFFF := by
    decide +kernel
  have hbody' : StreamBody.Findable (statedLength [("Length", .num twentyNines)])
      (Bytes.ofAscii "ABC") [0x0A] (Bytes.ofAscii " f") := by
    refine .marked (fun n hn => ?_) (by decide +kernel) (by decide +kernel)
    obtain rfl : 0xFFFFFFFFFFFFFFFF = n := Option.some.inj (hlength'.symm.trans hn)
    rw [List.drop_eq_nil_of_le (by decide +kernel)]
    decide
  have hroom' : StreamBody.hasRoom (statedLength [("Length", .num twentyNines)]) = false := by
    rw [hlength']
    rfl
  have hgap : Token.skipBlanks false ([] ++ streamKeyword) = streamKeyword := rfl
  exact ⟨(hsource.readObject_stream hgap .lf .lf hbody).1 hroom,
    (hsource'.readObject_stream hgap .lf .lf hbody').2 hroom'⟩

end Lookahead

end PdfScene
