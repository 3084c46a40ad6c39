import Mathlib.Data.List.Nodup
import Mathlib.Data.Set.Defs
import PdfScene.Proofs.Store.Running

/-!
# The cache of decoded streams

The cache remembers what streams decode to, by their references and for so many of them, and can be
told to forget some. It is `Faithful` to some streams if all that it holds is what one of them decodes
to, no reference is held twice and no more entries than its limit. Every operation keeps it so. Asking
through it then comes to what asking without it does, whatever has been asked and forgotten before
(`serve_spec`), provided that no two of the streams carry one reference.
-/

set_option autoImplicit false

namespace PdfScene

/-! ## What the operations do to the entries -/

namespace DecodeCache

variable {c : DecodeCache} {r : ObjRef} {d : Decoded} {e : ObjRef × Decoded}

theorem mem_of_find? (h : c.find? r = some d) : (r, d) ∈ c.entries := by
  obtain ⟨before, after, hc, _⟩ := List.lookup_eq_some_iff.mp h
  simp [hc]

theorem mem_use (h : e ∈ (c.use r d).entries) : e = (r, d) ∨ e ∈ c.entries := by
  rcases List.mem_cons.mp (List.mem_of_mem_take h) with h | h
  · exact .inl h
  · exact .inr (List.mem_filter.mp h).1

/-- There is always room for the entry used last. -/
theorem limit_pos (c : DecodeCache) : 0 < c.limit := by
  unfold limit
  omega

theorem entries_use (c : DecodeCache) (r : ObjRef) (d : Decoded) :
    (c.use r d).entries = (r, d) :: (c.erase r).entries.take (c.limit - 1) := by
  obtain ⟨n, hn⟩ := Nat.exists_eq_succ_of_ne_zero (Nat.ne_of_gt c.limit_pos)
  simp [use, hn]

theorem find?_use (c : DecodeCache) (r : ObjRef) (d : Decoded) : (c.use r d).find? r = some d := by
  simp [find?, entries_use]

theorem size_use_le (c : DecodeCache) (r : ObjRef) (d : Decoded) : (c.use r d).size ≤ c.limit := by
  unfold size use
  exact List.length_take_le _ _

theorem erase_sublist (c : DecodeCache) (r : ObjRef) : (c.erase r).entries.Sublist c.entries :=
  List.filter_sublist

theorem find?_erase (c : DecodeCache) (r r' : ObjRef) :
    (c.erase r).find? r' = if r' = r then none else c.find? r' := by
  obtain ⟨capacity, entries⟩ := c
  unfold erase find?
  induction entries with
  | nil => simp
  | cons e entries ih =>
    obtain ⟨key, d⟩ := e
    dsimp only at ih ⊢
    rw [List.filter_cons, List.lookup_cons]
    by_cases hkey : key = r
    · subst hkey
      by_cases hr : r' = key
      · simpa [hr] using ih
      · have hne : (r' == key) = false := beq_eq_false_iff_ne.mpr hr
        simpa [hr, hne] using ih
    · by_cases hr : r' = key
      · simp [hkey, hr]
      · have hne : (r' == key) = false := beq_eq_false_iff_ne.mpr hr
        simpa [hkey, hne, List.lookup_cons] using ih

theorem find?_foldl_erase (c : DecodeCache) (refs : List ObjRef) (r : ObjRef) :
    (refs.foldl erase c).find? r = if r ∈ refs then none else c.find? r := by
  induction refs generalizing c with
  | nil => simp
  | cons r' refs ih =>
    rw [List.foldl_cons, ih, find?_erase]
    by_cases hr : r = r'
    · simp [hr]
    · by_cases hrefs : r ∈ refs
      · simp [hrefs]
      · simp [hr, hrefs]

theorem limit_foldl_erase (c : DecodeCache) (refs : List ObjRef) :
    (refs.foldl erase c).limit = c.limit := by
  induction refs generalizing c with
  | nil => rfl
  | cons r refs ih => exact ih (c.erase r)

theorem foldl_erase_sublist (c : DecodeCache) (refs : List ObjRef) :
    (refs.foldl erase c).entries.Sublist c.entries := by
  induction refs generalizing c with
  | nil => exact List.Sublist.refl _
  | cons r refs ih => exact (ih (c.erase r)).trans (c.erase_sublist r)

end DecodeCache

/-! ## Faithful caches -/

/-- Streams that carry different references, if they carry any and are not the same. -/
def StreamObj.ToldApart (streams : Set StreamObj) : Prop :=
  ∀ s ∈ streams, ∀ t ∈ streams, s.ref ≠ none → s.ref = t.ref → s = t

/-- A cache that holds what some streams decode to, one entry for a reference and no more than its
limit. -/
structure DecodeCache.Faithful (inflate : Inflater) (streams : Set StreamObj) (c : DecodeCache) :
    Prop where
  decoded : ∀ r d, (r, d) ∈ c.entries →
    ∃ s ∈ streams, s.ref = some r ∧ s.decode inflate = .ok d
  distinct : (c.entries.map Prod.fst).Nodup
  bounded : c.size ≤ c.limit

namespace DecodeCache.Faithful

variable {inflate : Inflater} {streams : Set StreamObj} {c : DecodeCache} {s : StreamObj}
  {r : ObjRef} {d : Decoded}

theorem empty (capacity : Nat) : (DecodeCache.empty capacity).Faithful inflate streams where
  decoded _ _ h := absurd h List.not_mem_nil
  distinct := List.nodup_nil
  bounded := Nat.zero_le _

/-- What is held under the reference of a stream is what that stream decodes to. -/
theorem eq_decode (h : c.Faithful inflate streams) (hapart : StreamObj.ToldApart streams)
    (hs : s ∈ streams) (hr : s.ref = some r) (hmem : (r, d) ∈ c.entries) :
    s.decode inflate = .ok d := by
  obtain ⟨t, ht, htr, hdecode⟩ := h.decoded r d hmem
  have hne : s.ref ≠ none := by simp [hr]
  have hst : s = t := hapart s hs t ht hne (hr.trans htr.symm)
  rw [hst, hdecode]

theorem use (h : c.Faithful inflate streams) (hs : s ∈ streams) (hr : s.ref = some r)
    (hdecode : s.decode inflate = .ok d) : (c.use r d).Faithful inflate streams where
  decoded := by
    intro r' d' hmem
    rcases mem_use hmem with heq | hmem
    · cases heq
      exact ⟨s, hs, hr, hdecode⟩
    · exact h.decoded r' d' hmem
  distinct := by
    rw [entries_use, List.map_cons, List.nodup_cons]
    constructor
    · simp only [List.mem_map, not_exists, not_and]
      intro e he
      have herased := (List.mem_filter.mp (List.mem_of_mem_take he)).2
      simpa using herased
    · have hsub := (List.take_sublist (c.limit - 1) _).trans (c.erase_sublist r)
      exact h.distinct.sublist (hsub.map Prod.fst)
  bounded := size_use_le c r d

theorem erase (h : c.Faithful inflate streams) (refs : List ObjRef) :
    (refs.foldl DecodeCache.erase c).Faithful inflate streams where
  decoded r d hmem := h.decoded r d ((foldl_erase_sublist c refs).subset hmem)
  distinct := h.distinct.sublist ((foldl_erase_sublist c refs).map Prod.fst)
  bounded := by
    rw [limit_foldl_erase]
    exact Nat.le_trans (foldl_erase_sublist c refs).length_le h.bounded

end DecodeCache.Faithful

/-! ## Calls -/

namespace Memory

/-- **What becomes of asking for a stream.** Nothing is remembered of one that carries no reference or
cannot be decoded; any other is the one used last, with what was held of it or what it decodes to. -/
theorem decode_cases (inflate : Inflater) (s : StreamObj) (m : Memory) :
    (s.ref = none ∨ ∃ e, s.decode inflate = .error e) ∧
        Memory.decode inflate s m = (Panic.apart (s.decode inflate), m) ∨
      ∃ r d, s.ref = some r ∧ (m.cache.find? r = some d ∨ s.decode inflate = .ok d) ∧
        Memory.decode inflate s m = (.ok (.ok d), { m with cache := m.cache.use r d }) := by
  unfold Memory.decode
  cases hr : s.ref with
  | none => exact .inl ⟨.inl rfl, rfl⟩
  | some r =>
    cases hfound : m.cache.find? r with
    | some d => exact .inr ⟨r, d, rfl, .inl hfound, by simp [hfound]⟩
    | none =>
      cases hdecode : s.decode inflate with
      | ok d => exact .inr ⟨r, d, rfl, .inr rfl, by simp [hfound]⟩
      | error e => exact .inl ⟨.inr ⟨e, rfl⟩, by simp [hfound]⟩

variable {inflate : Inflater} {streams : Set StreamObj} {s : StreamObj} {m : Memory}

/-- The memory in which a stream with some decoded data is the one used last. -/
def used (r : ObjRef) (d : Decoded) (m : Memory) : Memory := { m with cache := m.cache.use r d }

/-- A stream that can be decoded is the one used last, whether or not it was held. -/
theorem decode_of_ok {r : ObjRef} {d : Decoded} (hr : s.ref = some r)
    (hdecode : s.decode inflate = .ok d) (hheld : ∀ d', m.cache.find? r = some d' → d' = d) :
    Memory.decode inflate s m = (.ok (.ok d), m.used r d) := by
  unfold Memory.decode used
  rw [hr]
  cases hfound : m.cache.find? r with
  | some d' =>
    obtain rfl := hheld d' hfound
    dsimp only
    rw [hfound]
  | none =>
    dsimp only
    rw [hfound, hdecode]

/-- **Asking through a faithful cache is decoding**, and leaves it faithful and of the same limit. -/
theorem decode_faithful (h : m.cache.Faithful inflate streams)
    (hapart : StreamObj.ToldApart streams) (hs : s ∈ streams) :
    (Memory.decode inflate s m).1 = Panic.apart (s.decode inflate) ∧
      (Memory.decode inflate s m).2.cache.Faithful inflate streams ∧
      (Memory.decode inflate s m).2.cache.limit = m.cache.limit := by
  rcases decode_cases inflate s m with ⟨-, heq⟩ | ⟨r, d, hr, hknown, heq⟩
  · rw [heq]
    exact ⟨rfl, h, rfl⟩
  · have hdecode : s.decode inflate = .ok d := by
      rcases hknown with hfound | hdecode
      · exact h.eq_decode hapart hs hr (DecodeCache.mem_of_find? hfound)
      · exact hdecode
    rw [heq, hdecode]
    exact ⟨rfl, h.use hs hr hdecode, rfl⟩

/-- What has just been decoded is held. -/
theorem find?_decode (h : m.cache.Faithful inflate streams) (hapart : StreamObj.ToldApart streams)
    (hs : s ∈ streams) {r : ObjRef} {d : Decoded} (hr : s.ref = some r)
    (hdecode : s.decode inflate = .ok d) :
    (Memory.decode inflate s m).2.cache.find? r = some d := by
  have hanswer := (decode_faithful h hapart hs).1
  rcases decode_cases inflate s m with ⟨hnone | ⟨e, herror⟩, -⟩ | ⟨r', d', hr', -, heq⟩
  · simp [hr] at hnone
  · simp [hdecode] at herror
  · rw [heq] at hanswer ⊢
    obtain rfl : r' = r := by simpa [hr'] using hr
    obtain rfl : d' = d := by simpa [hdecode] using hanswer
    exact DecodeCache.find?_use _ _ _

/-- Something that a cache is asked for. -/
inductive Demand where
  | decode (s : StreamObj)
  | evict (refs : List ObjRef)

def Demand.stream? : Demand → Option StreamObj
  | .decode s => some s
  | .evict _ => none

/-- Meets demands one after the other. The answers are those for the streams among them. A panic is an
answer here: whoever asks may catch it and ask again. -/
def serve (inflate : Inflater) :
    List Demand → Memory → List (Except Panic (Except Error Decoded)) × Memory
  | [], m => ([], m)
  | .decode s :: demands, m =>
    let (answer, m) := Memory.decode inflate s m
    let (answers, m) := serve inflate demands m
    (answer :: answers, m)
  | .evict refs :: demands, m => serve inflate demands (m.evict refs)

theorem serve_decode (inflate : Inflater) (s : StreamObj) (demands : List Demand) (m : Memory) :
    serve inflate (.decode s :: demands) m =
      ((Memory.decode inflate s m).1 :: (serve inflate demands (Memory.decode inflate s m).2).1,
        (serve inflate demands (Memory.decode inflate s m).2).2) := rfl

theorem serve_evict (inflate : Inflater) (refs : List ObjRef) (demands : List Demand) (m : Memory) :
    serve inflate (.evict refs :: demands) m = serve inflate demands (m.evict refs) := rfl

/-- The answers to any demands are what the streams decode to, and the cache stays faithful. -/
theorem serve_faithful (h : m.cache.Faithful inflate streams) (hapart : StreamObj.ToldApart streams)
    (demands : List Demand) (hdemands : ∀ s, .decode s ∈ demands → s ∈ streams) :
    (serve inflate demands m).1 =
        (demands.filterMap Demand.stream?).map (fun s => Panic.apart (s.decode inflate)) ∧
      (serve inflate demands m).2.cache.Faithful inflate streams ∧
      (serve inflate demands m).2.cache.limit = m.cache.limit := by
  induction demands generalizing m with
  | nil => exact ⟨rfl, h, rfl⟩
  | cons demand demands ih =>
    have hrest : ∀ s, .decode s ∈ demands → s ∈ streams := by
      intro s hs
      exact hdemands s (List.mem_cons_of_mem _ hs)
    cases demand with
    | decode s =>
      have hs : s ∈ streams := hdemands s List.mem_cons_self
      obtain ⟨hanswer, hfaithful, hlimit⟩ := decode_faithful h hapart hs
      obtain ⟨hanswers, hfaithful', hlimit'⟩ := ih hfaithful hrest
      rw [serve_decode]
      refine ⟨?_, hfaithful', hlimit'.trans hlimit⟩
      simp [Demand.stream?, hanswer, hanswers]
    | evict refs =>
      obtain ⟨hanswers, hfaithful, hlimit⟩ := ih (m := m.evict refs) (h.erase refs) hrest
      rw [serve_evict]
      exact ⟨hanswers, hfaithful, hlimit.trans (m.cache.limit_foldl_erase refs)⟩

/-- **A cache is not seen in the answers.** From a new cache of any capacity, and for any demands of
streams that are told apart by their references, every answer is what the stream decodes to, faults
and panics included. The cache then holds no more entries than its capacity, of which zero counts as
one, no two of them for one reference, and each is what the stream of that reference decodes to. A
stream that has a reference and decodes is held after it has been asked for. Of what is evicted nothing
is held any more, and of all else what was held before. -/
theorem serve_spec (inflate : Inflater) (lib : Library) (capacity : Nat) {streams : Set StreamObj}
    (hapart : StreamObj.ToldApart streams) (demands : List Demand)
    (hdemands : ∀ s, .decode s ∈ demands → s ∈ streams) :
    let served := serve inflate demands (.initial lib capacity)
    served.1 = (demands.filterMap Demand.stream?).map (fun s => Panic.apart (s.decode inflate)) ∧
      served.2.cache.size ≤ max 1 capacity ∧ (served.2.cache.entries.map Prod.fst).Nodup ∧
      (∀ r d, (r, d) ∈ served.2.cache.entries →
        (∃ s ∈ streams, s.ref = some r) ∧
          ∀ s ∈ streams, s.ref = some r → s.decode inflate = .ok d) ∧
      (∀ s ∈ streams, ∀ r d, s.ref = some r → s.decode inflate = .ok d →
        (Memory.decode inflate s served.2).2.cache.find? r = some d) ∧
      ∀ refs r, (served.2.evict refs).cache.find? r =
        if r ∈ refs then none else served.2.cache.find? r := by
  intro served
  obtain ⟨hanswers, hfaithful, hlimit⟩ := serve_faithful (m := .initial lib capacity)
    (DecodeCache.Faithful.empty capacity) hapart demands hdemands
  refine ⟨hanswers, ?_, hfaithful.distinct, ?_, ?_, ?_⟩
  · rw [show max 1 capacity = served.2.cache.limit from hlimit.symm]
    exact hfaithful.bounded
  · intro r d hmem
    obtain ⟨s, hs, hr, -⟩ := hfaithful.decoded r d hmem
    refine ⟨⟨s, hs, hr⟩, ?_⟩
    intro t ht htr
    exact hfaithful.eq_decode hapart ht htr hmem
  · intro s hs r d hr hdecode
    exact find?_decode hfaithful hapart hs hr hdecode
  · intro refs r
    exact DecodeCache.find?_foldl_erase _ refs r

/-- The stream of an object, with no filter. -/
def plainStream (num : UInt32) (data : Bytes) : StreamObj := ⟨[], data, some ⟨num, 0⟩⟩

/-- A stream that cannot be decoded. -/
def encryptedStream : StreamObj := ⟨[("Filter", .name "Crypt")], [4], some ⟨8, 0⟩⟩

def fourStreams : List StreamObj :=
  [plainStream 5 [1], plainStream 6 [2], plainStream 7 [3], encryptedStream]

theorem toldApart_fourStreams : StreamObj.ToldApart {s | s ∈ fourStreams} := by
  have hrefs : (fourStreams.map StreamObj.ref).Nodup := by decide
  intro s hs t ht _ href
  exact List.inj_on_of_nodup_map hrefs hs ht href

/-- A cache for two streams is asked for the streams of 5 and 6, again for that of 5, and for those of
7, 6 and 8. Then 7 is evicted. -/
def busyDemands : List Demand :=
  [.decode (plainStream 5 [1]), .decode (plainStream 6 [2]), .decode (plainStream 5 [1]),
    .decode (plainStream 7 [3]), .decode (plainStream 6 [2]), .decode encryptedStream,
    .evict [⟨7, 0⟩]]

/-- The second answer for 5 is from the cache, which makes 6 the one used longest ago. So 6 makes room
for 7, and then 5 for 6. -/
theorem serve_spec_fourStreams :
    let held (n : Nat) := (serve .none (busyDemands.take n) (.initial .empty 2)).2.cache
    let served := serve .none busyDemands (.initial .empty 2)
    StreamObj.ToldApart {s | s ∈ fourStreams} ∧
      (∀ s, .decode s ∈ busyDemands → s ∈ fourStreams) ∧
      (List.range 8).map (fun n => (held n).entries.map fun entry => entry.1.num) =
        [[], [5], [6, 5], [5, 6], [7, 5], [6, 7], [6, 7], [6]] ∧
      served.1 = [.ok (.ok ⟨[1], none⟩), .ok (.ok ⟨[2], none⟩), .ok (.ok ⟨[1], none⟩),
        .ok (.ok ⟨[3], none⟩), .ok (.ok ⟨[2], none⟩),
        .ok (.error (.decode "Crypt" .unsupportedFilter))] ∧
      served.2.cache.size ≤ 2 ∧ (served.2.evict [⟨6, 0⟩]).cache.find? ⟨6, 0⟩ = none := by
  intro held served
  have hdemands : ∀ s, .decode s ∈ busyDemands → s ∈ fourStreams := by
    intro s hs
    simp only [busyDemands, List.mem_cons, Demand.decode.injEq] at hs
    simp only [fourStreams, List.mem_cons]
    tauto
  obtain ⟨hanswers, hsize, -, -, -, hevicted⟩ :=
    serve_spec .none .empty 2 toldApart_fourStreams busyDemands hdemands
  exact ⟨toldApart_fourStreams, hdemands, by decide, hanswers, hsize, hevicted [⟨6, 0⟩] ⟨6, 0⟩⟩

end Memory

end PdfScene
