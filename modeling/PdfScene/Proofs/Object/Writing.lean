import Mathlib.Data.List.Perm.Basic
import Mathlib.Data.List.Nodup
import PdfScene.Proofs.Lexical.Digits
import PdfScene.Proofs.Object.Keys
import PdfScene.Proofs.Object.Reading

/-!
# Objects that are written out are read back

`Obj.Writes` says with which tokens an object is written: an atom is one token, a reference three, and
a container is what stands in it between brackets. The entries of a dictionary may stand in any order,
which is all that reading can tell from the object, so what is read back is `Obj.Same`.

The reader works on a stack, and what it does with a value in front of it is to hand that to the
container around it (`ReadsAs`). Arrays and dictionaries of such values are such values in turn, as
inside a container the next token never makes a reference or a stream of what has been read.
-/

set_option autoImplicit false

namespace PdfScene

/-! ## How objects are written -/

/-- The token that an atom is written as. -/
def Obj.token? : Obj → Option Token
  | .null => some .null
  | .bool b => some (.bool b)
  | .num x => some (.num x)
  | .str bytes => some (.str bytes)
  | .hexStr bytes => some (.hexStr bytes)
  | .name text => some (.name text)
  | _ => none

/-- The tokens of an entry. -/
def Dict.entryTokens (e : String × Obj × List Token) : List Token := .name e.1 :: e.2.2

theorem Dict.entries_tokens (e : String × Obj × List Token)
    (entries : List (String × Obj × List Token)) :
    (e :: entries).flatMap entryTokens ++ [Token.dictEnd] =
      .name e.1 :: (e.2.2 ++ (entries.flatMap entryTokens ++ [.dictEnd])) := by
  simp [entryTokens]

inductive Obj.Writes : Obj → List Token → Prop where
  | atom {o : Obj} {t : Token} (h : o.token? = some t) : Writes o [t]
  | ref {n g : Float} (hn : 0 ≤ n) (hg : 0 ≤ g) :
      Writes (.ref ⟨n.toUInt32, g.toUInt32⟩) [.num n, .num g, .word "R"]
  | array {items : List (Obj × List Token)} (h : ∀ p ∈ items, Writes p.1 p.2) :
      Writes (.array (items.map Prod.fst)) (.arrayStart :: (items.flatMap Prod.snd ++ [.arrayEnd]))
  | dict {d : Dict} {entries : List (String × Obj × List Token)} (hdistinct : d.Distinct)
      (horder : d.Perm (entries.map fun e => (e.1, e.2.1))) (h : ∀ e ∈ entries, Writes e.2.1 e.2.2) :
      Writes (.dict d) (.dictStart :: (entries.flatMap Dict.entryTokens ++ [.dictEnd]))

/-- Equality up to the order of entries in dictionaries, at any depth. -/
inductive Obj.Same : Obj → Obj → Prop where
  | refl (o : Obj) : Same o o
  | array {pairs : List (Obj × Obj)} (h : ∀ p ∈ pairs, Same p.1 p.2) :
      Same (.array (pairs.map Prod.fst)) (.array (pairs.map Prod.snd))
  | dict {d d' : Dict} (hd : d.Distinct) (hd' : d'.Distinct) (hkeys : ∀ key, d.has key = d'.has key)
      (h : ∀ key v v', d.get? key = some v → d'.get? key = some v' → Same v v') :
      Same (.dict d) (.dict d')

/-- Nothing that follows an object makes it part of another one: no number and `R` stand behind a
number that may open a reference, and no `stream` behind a dictionary. -/
def Obj.EndsBefore (o : Obj) (view : Lookahead) : Prop :=
  match o with
  | .num x => ∀ g, 0 ≤ x → 0 ≤ g → view.first = .num g → view.second ≠ .word "R"
  | .dict _ => view.first ≠ .word "stream"
  | _ => True

theorem Obj.Same.endsBefore {o o' : Obj} (h : o.Same o') {view : Lookahead}
    (hview : o'.EndsBefore view) : o.EndsBefore view := by
  cases h with
  | refl => exact hview
  | array => trivial
  | dict => exact hview

/-! ## Dictionaries in another order -/

namespace Dict

/-- What stands under a key of a dictionary is its one entry. -/
theorem get?_eq_some_iff {d : Dict} (h : d.Distinct) {key : String} {value : Obj} :
    d.get? key = some value ↔ (key, value) ∈ d := by
  induction d with
  | nil => simp [get?]
  | cons entry d ih =>
    obtain ⟨key', value'⟩ := entry
    obtain ⟨hfresh, hd⟩ := List.nodup_cons.mp h
    rw [get?_cons, List.mem_cons, Prod.mk.injEq]
    split
    · rename_i hkey
      subst hkey
      have hnot : (key', value) ∉ d := fun hmem =>
        hfresh (List.mem_map.mpr ⟨_, hmem, rfl⟩)
      simp [hnot, eq_comm]
    · rename_i hkey
      simp [ih hd, Ne.symm hkey]

theorem has_iff {d : Dict} (h : d.Distinct) {key : String} :
    d.has key = true ↔ ∃ value, (key, value) ∈ d := by
  simp only [has, Option.isSome_iff_exists, get?_eq_some_iff h]

/-- A new key goes to the end. -/
theorem insert_eq_append {d : Dict} {key : String} (h : key ∉ d.map Prod.fst) (value : Obj) :
    d.insert key value = d ++ [(key, value)] := by
  induction d with
  | nil => rfl
  | cons entry d ih =>
    obtain ⟨key', value'⟩ := entry
    simp only [List.map_cons, List.mem_cons, not_or] at h
    rw [insert, if_neg (Ne.symm h.1), ih h.2, List.cons_append]

end Dict

theorem Obj.Same.items {items : List (Obj × List Token)} {value : Obj × List Token → Obj}
    (h : ∀ p ∈ items, (value p).Same p.1) :
    Obj.Same (.array (items.map value)) (.array (items.map Prod.fst)) := by
  have hpairs : ∀ q ∈ items.map fun p => (value p, p.1), q.1.Same q.2 := by
    intro q hq
    obtain ⟨p, hp, rfl⟩ := List.mem_map.mp hq
    exact h p hp
  simpa [Function.comp_def] using Obj.Same.array hpairs

/-- Values that are the same give the same dictionary, in whatever order they are put. -/
theorem Obj.Same.entries {d : Dict} {entries : List (String × Obj × List Token)}
    {value : String × Obj × List Token → Obj} (hdistinct : d.Distinct)
    (horder : d.Perm (entries.map fun e => (e.1, e.2.1)))
    (h : ∀ e ∈ entries, (value e).Same e.2.1) :
    Obj.Same (.dict (entries.map fun e => (e.1, value e))) (.dict d) := by
  have hkeys : (entries.map fun e => (e.1, value e)).map Prod.fst =
      (entries.map fun e => (e.1, e.2.1)).map Prod.fst := by
    simp [List.map_map, Function.comp_def]
  have hentries : Dict.Distinct (entries.map fun e => (e.1, e.2.1)) :=
    (horder.map Prod.fst).nodup_iff.mp hdistinct
  have hvalues : Dict.Distinct (entries.map fun e => (e.1, value e)) := by
    unfold Dict.Distinct
    rwa [hkeys]
  refine .dict hvalues hdistinct (fun key => ?_) fun key v v' hv hv' => ?_
  · rw [Bool.eq_iff_iff, Dict.has_iff hvalues, Dict.has_iff hdistinct]
    simp [horder.mem_iff]
  · rw [Dict.get?_eq_some_iff hvalues, List.mem_map] at hv
    obtain ⟨e, he, heq⟩ := hv
    cases heq
    rw [Dict.get?_eq_some_iff hdistinct, horder.mem_iff] at hv'
    have hmem : (e.1, e.2.1) ∈ entries.map fun e => (e.1, e.2.1) := List.mem_map_of_mem he
    have hsame := (Dict.get?_eq_some_iff hentries).mpr hmem
    rw [(Dict.get?_eq_some_iff hentries).mpr hv'] at hsame
    cases hsame
    exact h e he

namespace Lookahead

/-! ## Tokens at the front of the input -/

/-- The tokens `ts` stand at the front of the input, malformed ones apart, and `rest` behind them. -/
inductive Delivers : Bytes → List Token → Bytes → Prop where
  | nil (bs : Bytes) : Delivers bs [] bs
  | cons {bs bs' rest : Bytes} {t : Token} {ts : List Token} (h : nextToken bs = (t, bs'))
      (hmore : t ≠ .eof) (hts : Delivers bs' ts rest) : Delivers bs (t :: ts) rest

variable {bs bs' mid rest : Bytes} {t u : Token} {ts us : List Token} {view : Lookahead}
  {stack : List Frame} {o : Obj}

theorem Delivers.split (h : Delivers bs (ts ++ us) rest) :
    ∃ mid, Delivers bs ts mid ∧ Delivers mid us rest := by
  induction ts generalizing bs with
  | nil => exact ⟨bs, .nil bs, h⟩
  | cons t ts ih =>
    rw [List.cons_append] at h
    cases h with
    | cons hnext hmore hts =>
      obtain ⟨mid, hfront, hbehind⟩ := ih hts
      exact ⟨mid, .cons hnext hmore hfront, hbehind⟩

theorem ofBytes_first (h : nextToken bs = (t, bs')) : (ofBytes bs).first = t := by
  simp [ofBytes, h]

theorem ofBytes_second (h : nextToken bs = (t, bs')) : (ofBytes bs).second = (ofBytes bs').first := by
  simp [ofBytes, h]

theorem shift_ofBytes (h : nextToken bs = (t, bs')) : (ofBytes bs).shift = ofBytes bs' := by
  simp [ofBytes, shift, h]

theorem Delivers.first (h : Delivers bs (t :: ts) rest) : (ofBytes bs).first = t := by
  cases h with
  | cons hnext => exact ofBytes_first hnext

theorem Delivers.second (h : Delivers bs (t :: u :: ts) rest) : (ofBytes bs).second = u := by
  cases h with
  | cons hnext hmore hts => rw [ofBytes_second hnext, hts.first]

/-- Behind the first token stand the others. -/
theorem Delivers.shift (h : Delivers bs (t :: ts) rest) :
    ∃ bs', (ofBytes bs).shift = ofBytes bs' ∧ Delivers bs' ts rest := by
  cases h with
  | cons hnext hmore hts => exact ⟨_, shift_ofBytes hnext, hts⟩

theorem Delivers.nil_eq (h : Delivers bs [] rest) : rest = bs := by
  cases h
  rfl

/-! ## Where values begin and end -/

end Lookahead

/-- A token that a value may begin with. -/
def Token.opensValue : Token → Bool
  | .eof | .arrayEnd | .dictEnd | .word _ => false
  | _ => true

/-- Tokens that may stand behind a value inside a container. -/
inductive Token.Closes : List Token → Prop where
  | mark {t : Token} {ts : List Token} (hword : ∀ w, t ≠ .word w) (hnum : ∀ x, t ≠ .num x) :
      Closes (t :: ts)
  | num {x : Float} {t : Token} {ts : List Token} (hword : ∀ w, t ≠ .word w) :
      Closes (.num x :: t :: ts)

/-- Tokens that a value begins with: there is a first one, and no word is the second. -/
inductive Token.Opens : List Token → Prop where
  | single {t : Token} (h : t.opensValue = true) : Opens [t]
  | more {t u : Token} {ts : List Token} (h : t.opensValue = true) (hword : ∀ w, u ≠ .word w) :
      Opens (t :: u :: ts)

namespace Token

theorem ne_word_of_opensValue {t : Token} (h : t.opensValue = true) (w : String) : t ≠ .word w := by
  rintro rfl
  cases h

/-- In front of what may stand behind a value, a value may stand behind a value. -/
theorem Opens.closes {ts us : List Token} (h : Opens ts) (hus : Closes us) : Closes (ts ++ us) := by
  have hopens : ∀ {t u : Token} {vs : List Token}, t.opensValue = true → (∀ w, u ≠ .word w) →
      Closes (t :: u :: vs) := by
    intro t u vs ht hu
    by_cases hnum : ∃ x, t = .num x
    · obtain ⟨x, rfl⟩ := hnum
      exact .num hu
    · exact .mark (ne_word_of_opensValue ht) fun x hx => hnum ⟨x, hx⟩
  cases h with
  | single ht =>
    cases hus with
    | mark hword => exact hopens ht hword
    | num => exact hopens ht nofun
  | more ht hu => exact hopens ht hu

theorem Closes.opens {t : Token} {ts : List Token} (ht : t.opensValue = true) (h : Closes ts) :
    Opens (t :: ts) := by
  cases h with
  | mark hword => exact .more ht hword
  | num => exact .more ht nofun

theorem Opens.flatMap {α : Type} {f : α → List Token} {items : List α} {last : Token}
    (h : ∀ p ∈ items, Opens (f p)) (hword : ∀ w, last ≠ .word w) (hnum : ∀ x, last ≠ .num x) :
    Closes (items.flatMap f ++ [last]) := by
  induction items with
  | nil => exact .mark hword hnum
  | cons p items ih =>
    rw [List.forall_mem_cons] at h
    rw [List.flatMap_cons, List.append_assoc]
    exact h.1.closes (ih h.2)

end Token

namespace Lookahead

variable {bs bs' mid rest : Bytes} {t u : Token} {ts us : List Token} {view : Lookahead}
  {stack : List Frame} {o : Obj}

/-- Inside a container a value ends where it ends. -/
theorem Delivers.endsBefore (h : Delivers bs ts rest) (hts : Token.Closes ts) (o : Obj) :
    o.EndsBefore (ofBytes bs) := by
  unfold Obj.EndsBefore
  cases hts with
  | mark hword hnum =>
    cases o with
    | num x => exact fun g _ _ hfirst => absurd (h.first.symm.trans hfirst) (hnum g)
    | dict d => exact fun hfirst => hword _ (h.first.symm.trans hfirst)
    | _ => trivial
  | num hword =>
    cases o with
    | num x => exact fun g _ _ _ hsecond => hword _ (h.second.symm.trans hsecond)
    | dict d =>
      dsimp only
      rw [h.first]
      nofun
    | _ => trivial

/-- The innermost container waits for a value, or none is open. -/
def AtValue : List Frame → Prop
  | .dict _ :: _ => False
  | _ => True

/-- What a run comes to from where a step leads. -/
def Outcome.result : Outcome → Except Error Obj × Lookahead
  | .more stack view => run stack view
  | .done result view => (result, view)

theorem run_eq (stack : List Frame) (view : Lookahead) : run stack view = (step stack view).result := by
  cases h : step stack view with
  | more stack' view' => exact run_of_more h
  | done result view' => exact run_of_done h

/-- The tokens are read as a value, which goes to the container around it. -/
structure ReadsAs (ts : List Token) (o : Obj) : Prop where
  opens : Token.Opens ts
  run : ∀ (stack : List Frame) {bs rest : Bytes}, AtValue stack → Delivers bs ts rest →
    o.EndsBefore (ofBytes rest) → run stack (ofBytes bs) = (settle (.ok o) (ofBytes rest) stack).result

theorem step_atValue (hstack : AtValue stack) (h : view.first.opensValue = true) :
    step stack view = opening stack view := by
  match stack with
  | [] => rfl
  | .entry entries key :: outer => rfl
  | .array items :: outer =>
    unfold step
    cases hfirst : view.first <;> rw [hfirst] at h <;> first | rfl | cases h

theorem number_eq {x : Float} (h : (Obj.num x).EndsBefore view) : number x view = (.num x, view) := by
  unfold number
  split
  · rename_i g w hfirst hsecond
    rw [if_neg]
    intro href
    simp only [Bool.and_eq_true, decide_eq_true_eq] at href
    exact h g href.1.2 href.2 hfirst (by rw [hsecond, href.1.1])
  · rfl

theorem readsAs_atom (h : o.token? = some t) : ReadsAs [t] o := by
  have hopens : t.opensValue = true := by
    cases o <;> cases h <;> rfl
  refine ⟨.single hopens, fun stack {bs rest} hstack hts hrest => ?_⟩
  obtain ⟨bs', hshift, hbs'⟩ := hts.shift
  obtain rfl := hbs'.nil_eq
  have hfirst := hts.first
  rw [run_eq, step_atValue hstack (by rw [hfirst, hopens]), opening]
  dsimp only
  rw [hfirst, hshift]
  cases o <;> cases h
  case num x => simp only [number_eq hrest]
  all_goals rfl

theorem readsAs_ref {n g : Float} (hn : 0 ≤ n) (hg : 0 ≤ g) :
    ReadsAs [.num n, .num g, .word "R"] (.ref ⟨n.toUInt32, g.toUInt32⟩) := by
  refine ⟨.more rfl nofun, fun stack {bs rest} hstack hts _ => ?_⟩
  have hfirst := hts.first
  obtain ⟨bs₁, hshift₁, hts₁⟩ := hts.shift
  obtain ⟨bs₂, hshift₂, hts₂⟩ := hts₁.shift
  obtain ⟨bs₃, hshift₃, hts₃⟩ := hts₂.shift
  obtain rfl := hts₃.nil_eq
  have hnumber : number n (ofBytes bs₁) = (.ref ⟨n.toUInt32, g.toUInt32⟩, ofBytes rest) := by
    simp [number, hts₁.first, hts₁.second, hn, hg, hshift₂, hshift₃]
  rw [run_eq, step_atValue hstack (by rw [hfirst]; rfl), opening]
  dsimp only
  rw [hfirst, hshift₁]
  simp only [hnumber]

/-! ## Arrays -/

section Items

variable {items : List (Obj × List Token)} {value : Obj × List Token → Obj}

theorem closes_items (h : ∀ p ∈ items, ReadsAs p.2 (value p)) :
    Token.Closes (items.flatMap Prod.snd ++ [.arrayEnd]) :=
  Token.Opens.flatMap (fun p hp => (h p hp).opens) nofun nofun

theorem run_items (h : ∀ p ∈ items, ReadsAs p.2 (value p)) {done : List Obj}
    (hts : Delivers bs (items.flatMap Prod.snd ++ [.arrayEnd]) rest) :
    run (.array done :: stack) (ofBytes bs) =
      (settle (.ok (.array (done.reverse ++ items.map value))) (ofBytes rest) stack).result := by
  induction items generalizing bs done with
  | nil =>
    obtain ⟨bs', hshift, hbs'⟩ := hts.shift
    obtain rfl := hbs'.nil_eq
    rw [run_eq, step]
    simp only [hts.first, hshift, List.map_nil, List.append_nil]
  | cons p items ih =>
    rw [List.forall_mem_cons] at h
    rw [List.flatMap_cons, List.append_assoc] at hts
    obtain ⟨mid, hp, hitems⟩ := hts.split
    have hends := hitems.endsBefore (closes_items h.2) (value p)
    rw [h.1.run (.array done :: stack) trivial hp hends, settle, Outcome.result, ih h.2 hitems]
    simp

theorem readsAs_array (h : ∀ p ∈ items, ReadsAs p.2 (value p)) :
    ReadsAs (.arrayStart :: (items.flatMap Prod.snd ++ [.arrayEnd])) (.array (items.map value)) := by
  refine ⟨(closes_items h).opens rfl, fun stack {bs rest} hstack hts _ => ?_⟩
  obtain ⟨bs', hshift, hbs'⟩ := hts.shift
  rw [run_eq, step_atValue hstack (by rw [hts.first]; rfl), opening]
  dsimp only
  rw [hts.first, hshift]
  exact run_items h hbs'

end Items

/-! ## Dictionaries -/

section Entries

variable {entries : List (String × Obj × List Token)} {value : String × Obj × List Token → Obj}

theorem closes_entries (entries : List (String × Obj × List Token)) :
    Token.Closes (entries.flatMap Dict.entryTokens ++ [.dictEnd]) := by
  cases entries with
  | nil => exact .mark nofun nofun
  | cons e entries => exact .mark nofun nofun

theorem close_eq (d : Dict) (stack : List Frame) (h : view.second ≠ .word "stream") :
    close d stack view = settle (.ok (.dict d)) view.shift stack := by
  unfold close
  split
  · rename_i w hsecond
    rw [if_neg fun hw => h (by rw [hsecond, hw])]
  · rfl

/-- A key in front of a value waits for it. -/
theorem step_key_value {d : Dict} {key : String} (hkey : view.first = .name key)
    (hvalue : view.shift.first.opensValue = true) :
    step (.dict d :: stack) view = .more (.entry d key :: stack) view.shift := by
  simp only [step, hkey]
  cases hfirst : view.shift.first <;> rw [hfirst] at hvalue <;> first | rfl | cases hvalue

theorem Delivers.opensValue (h : Delivers bs (ts ++ us) rest) (hts : Token.Opens ts) :
    (ofBytes bs).first.opensValue = true := by
  cases hts with
  | single ht => rwa [h.first]
  | more ht => rwa [h.first]

theorem run_entries (h : ∀ e ∈ entries, ReadsAs e.2.2 (value e)) {d : Dict}
    (hdistinct : (d.map Prod.fst ++ entries.map Prod.fst).Nodup)
    (hts : Delivers bs (entries.flatMap Dict.entryTokens ++ [.dictEnd]) rest)
    (hrest : (ofBytes rest).first ≠ .word "stream") :
    run (.dict d :: stack) (ofBytes bs) =
      (settle (.ok (.dict (d ++ entries.map fun e => (e.1, value e)))) (ofBytes rest) stack).result := by
  induction entries generalizing bs d with
  | nil =>
    rw [List.flatMap_nil, List.nil_append] at hts
    cases hts with
    | cons hnext _ hbs' =>
      obtain rfl := hbs'.nil_eq
      rw [← ofBytes_second hnext] at hrest
      rw [run_eq, step]
      simp only [ofBytes_first hnext, close_eq d stack hrest, shift_ofBytes hnext, List.map_nil,
        List.append_nil]
  | cons e entries ih =>
    rw [List.forall_mem_cons] at h
    rw [Dict.entries_tokens] at hts
    have hfirst := hts.first
    obtain ⟨bs', hshift, hvalue⟩ := hts.shift
    obtain ⟨mid, he, hentries⟩ := hvalue.split
    have hopens : (ofBytes bs).shift.first.opensValue = true := by
      rw [hshift]
      exact hvalue.opensValue h.1.opens
    have hfresh : e.1 ∉ d.map Prod.fst := fun hmem =>
      (List.disjoint_of_nodup_append hdistinct) hmem (by simp)
    rw [run_of_more (step_key_value hfirst hopens), hshift,
      h.1.run (.entry d e.1 :: stack) trivial he
        (hentries.endsBefore (closes_entries entries) (value e)),
      settle, Outcome.result, Dict.insert_eq_append hfresh, ih h.2 ?_ hentries]
    · simp
    · simpa using hdistinct

theorem readsAs_dict (h : ∀ e ∈ entries, ReadsAs e.2.2 (value e))
    (hdistinct : (entries.map Prod.fst).Nodup) :
    ReadsAs (.dictStart :: (entries.flatMap Dict.entryTokens ++ [.dictEnd]))
      (.dict (entries.map fun e => (e.1, value e))) := by
  refine ⟨(closes_entries entries).opens rfl, fun stack {bs rest} hstack hts hrest => ?_⟩
  obtain ⟨bs', hshift, hbs'⟩ := hts.shift
  rw [run_eq, step_atValue hstack (by rw [hts.first]; rfl), opening]
  dsimp only
  rw [hts.first, hshift]
  exact run_entries (d := []) h hdistinct hbs' hrest

end Entries

end Lookahead

end PdfScene
