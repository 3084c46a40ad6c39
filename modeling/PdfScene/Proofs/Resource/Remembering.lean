import PdfScene.Proofs.Resource.Readers
import PdfScene.Proofs.Store.Caching

/-!
# Remembering changes nothing

A memory holds decoded streams and fonts so that they need not be made again. It is *sound* for some
scopes if everything it holds is what would be made: `Memory.Sound`. Every computation that reads
resources keeps a memory sound, and from two sound memories it comes to the same answer, whatever
else the two remember.

Decoding a stream and reading a font are what asks the memory, and both are shown here to come to
what they would come to without one. All other readers are built from these two.

What a memory is sound for is a list of scopes and not one scope: a name is looked up in all of
them. The streams it is sound for are those that can come up at all, of which no two may carry one
reference.
-/

set_option autoImplicit false

namespace PdfScene

/-! ## What would be made -/

/-- The texts of a font's codes, from the stream that states them. -/
def Font.textsAfresh (lib : Library) (d : Dict) : Except Panic (Option CMap) :=
  match lib.stream? d "ToUnicode" with
  | none => .ok none
  | some s => do
    match ← Panic.apart (s.decode lib.inflate) with
    | .ok decoded => .ok (some (CMap.ofBytes decoded.data))
    | .error _ => .ok none

/-- The font of a dictionary, read without a memory. -/
def Font.afresh (lib : Library) (name : String) (d : Dict) : Except Panic Font :=
  Font.ofDict lib name d <$> Font.textsAfresh lib d

/-- The font of a name in a scope, read without a memory. -/
def Scope.fontAfresh (lib : Library) (name : String) (s : Scope) : Except Panic (Option Font) :=
  match (s.entry? lib "Font" name).bind fun o => (lib.resolve o).dict? with
  | none => .ok none
  | some d => some <$> Font.afresh lib name d

/-- A scope has the next number. -/
theorem Scope.create_apply (d : Dict) (m : Memory) :
    Scope.create d m = (.ok ⟨m.nextScope, d⟩, { m with nextScope := m.nextScope + 1 }) := rfl

/-! ## Sound memories -/

/-- What a memory holds is what would be made, for the streams that come up and for some scopes. -/
structure Memory.Sound (lib : Library) (roots : List Dict) (scopes : Scopes) (m : Memory) :
    Prop where
  /-- A remembered stream is remembered as what it decodes to. -/
  decoded : ∀ {r d s}, (r, d) ∈ m.cache.entries → lib.HoldsStream roots s → s.ref = some r →
    s.decode lib.inflate = .ok d
  /-- A remembered font is the one that its scope has under its name. -/
  font : ∀ {s name f}, s ∈ scopes → ((s.id, name), f) ∈ m.fonts →
    s.fontAfresh lib name = .ok (some f)
  /-- The numbers of the scopes and of those whose fonts are remembered have been issued. -/
  scopeIssued : ∀ s ∈ scopes, s.id < m.nextScope
  fontIssued : ∀ e ∈ m.fonts, e.1.1 < m.nextScope
  /-- A number is that of one dictionary only, and its dictionary comes up. -/
  dict_of_id : ∀ s ∈ scopes, ∀ t ∈ scopes, s.id = t.id → s.dict = t.dict
  held : ∀ s ∈ scopes, lib.HoldsDict roots s.dict

namespace Memory

variable {lib : Library} {roots : List Dict} {scopes : Scopes} {m : Memory}

/-- A memory at the start of work is sound before any scope has been made. -/
theorem Sound.initial (capacity : Nat) :
    (Memory.initial lib capacity).Sound lib roots [] where
  decoded h := absurd h (by simp [Memory.initial, DecodeCache.empty])
  font h := absurd h (by simp)
  scopeIssued _ h := absurd h (by simp)
  fontIssued _ h := absurd h (by simp [Memory.initial])
  dict_of_id _ h := absurd h (by simp)
  held _ h := absurd h (by simp)

theorem Sound.subset {scopes' : Scopes} (h : m.Sound lib roots scopes) (hs : scopes' ⊆ scopes) :
    m.Sound lib roots scopes' where
  decoded := h.decoded
  font hmem := h.font (hs hmem)
  scopeIssued s hmem := h.scopeIssued s (hs hmem)
  fontIssued := h.fontIssued
  dict_of_id s hmem t htmem := h.dict_of_id s (hs hmem) t (hs htmem)
  held s hmem := h.held s (hs hmem)

/-- A scope made for a dictionary that comes up is one more scope to be sound for. Its number is
new, so no font is remembered under it. -/
theorem Sound.create {d : Dict} (h : m.Sound lib roots scopes) (hd : lib.HoldsDict roots d) :
    (Scope.create d m).2.Sound lib roots (⟨m.nextScope, d⟩ :: scopes) where
  decoded := h.decoded
  font {s name f} hmem hfont := by
    rcases List.mem_cons.mp hmem with rfl | hmem
    · exact absurd (h.fontIssued _ hfont) (Nat.lt_irrefl _)
    · exact h.font hmem hfont
  scopeIssued s hmem := by
    rcases List.mem_cons.mp hmem with rfl | hmem
    · exact Nat.lt_succ_self _
    · exact Nat.lt_succ_of_lt (h.scopeIssued s hmem)
  fontIssued e he := Nat.lt_succ_of_lt (h.fontIssued e he)
  dict_of_id s hs t ht hid := by
    rcases List.mem_cons.mp hs with rfl | hs <;> rcases List.mem_cons.mp ht with rfl | ht
    · rfl
    · exact absurd (h.scopeIssued t ht) (hid ▸ Nat.lt_irrefl _)
    · exact absurd (h.scopeIssued s hs) (hid ▸ Nat.lt_irrefl _)
    · exact h.dict_of_id s hs t ht hid
  held s hs := by
    rcases List.mem_cons.mp hs with rfl | hs
    · exact hd
    · exact h.held s hs

theorem Sound.issueId (h : m.Sound lib roots scopes) :
    (Memory.issueId m).2.Sound lib roots scopes :=
  ⟨h.decoded, h.font, h.scopeIssued, h.fontIssued, h.dict_of_id, h.held⟩

/-! ## Decoded streams -/

/-- Remembering what a stream decodes to keeps a memory sound, as no other stream that comes up
carries its reference. -/
theorem Sound.use {s : StreamObj} {r : ObjRef} {d : Decoded} (h : m.Sound lib roots scopes)
    (hco : lib.Coherent roots) (hs : lib.HoldsStream roots s) (hr : s.ref = some r)
    (hd : s.decode lib.inflate = .ok d) :
    Sound lib roots scopes { m with cache := m.cache.use r d } where
  decoded {r' d' t} hmem ht hr' := by
    rcases DecodeCache.mem_use hmem with heq | hmem
    -- coherence: a stream with the reference of `s` is `s`
    · obtain ⟨rfl, rfl⟩ := Prod.mk.injEq .. ▸ heq
      have hst : s = t := hco s t hs ht (by simp [hr]) (by rw [hr, hr'])
      exact hst ▸ hd
    · exact h.decoded hmem ht hr'
  font := h.font
  scopeIssued := h.scopeIssued
  fontIssued := h.fontIssued
  dict_of_id := h.dict_of_id
  held := h.held

/-- **Decoding through a sound memory is decoding**, and leaves the memory sound. -/
theorem Sound.decode {s : StreamObj} (h : m.Sound lib roots scopes) (hco : lib.Coherent roots)
    (hs : lib.HoldsStream roots s) :
    (Memory.decode lib.inflate s m).1 = Panic.apart (s.decode lib.inflate) ∧
      (Memory.decode lib.inflate s m).2.Sound lib roots scopes := by
  rcases decode_cases lib.inflate s m with ⟨-, heq⟩ | ⟨r, d, hr, hknown, heq⟩
  · rw [heq]
    exact ⟨rfl, h⟩
  · have hd : s.decode lib.inflate = .ok d := by
      rcases hknown with hfound | hd
      · exact h.decoded (DecodeCache.mem_of_find? hfound) hs hr
      · exact hd
    rw [heq, hd]
    exact ⟨rfl, h.use hco hs hr hd⟩

/-! ## Fonts -/

/-- **Reading a font through a sound memory is reading it afresh.** -/
theorem Sound.readFont (name : String) {d : Dict} (h : m.Sound lib roots scopes)
    (hco : lib.Coherent roots) (hd : lib.HoldsDict roots d) :
    (Font.read lib name d m).1 = Font.afresh lib name d ∧
      (Font.read lib name d m).2.Sound lib roots scopes := by
  unfold Font.read Font.afresh Font.textsAfresh
  cases hs : lib.stream? d "ToUnicode" with
  | none => exact ⟨rfl, h⟩
  | some s =>
    obtain ⟨hval, hsound⟩ := h.decode hco (hd.stream hs)
    dsimp only
    generalize Panic.apart (s.decode lib.inflate) = r at hval
    rcases r with p | r
    · rw [Run.bind_of_error hval]
      exact ⟨rfl, hsound⟩
    · rw [Run.bind_of_ok hval]
      cases r <;> exact ⟨rfl, hsound⟩

theorem Sound.keepFont {s : Scope} {name : String} {f : Font} (h : m.Sound lib roots scopes)
    (hs : s ∈ scopes) (hf : s.fontAfresh lib name = .ok (some f)) :
    (m.keepFont s.id name f).Sound lib roots scopes where
  decoded := h.decoded
  font {t name' f'} ht hmem := by
    rcases List.mem_cons.mp hmem with heq | hmem
    · simp only [Prod.mk.injEq] at heq
      obtain ⟨⟨hid, rfl⟩, rfl⟩ := heq
      have hdict : t.dict = s.dict := h.dict_of_id t ht s hs hid
      unfold Scope.fontAfresh Scope.entry? at hf ⊢
      rw [hdict]
      exact hf
    · exact h.font ht hmem
  scopeIssued := h.scopeIssued
  fontIssued e he := by
    rcases List.mem_cons.mp he with rfl | he
    · exact h.scopeIssued s hs
    · exact h.fontIssued e he
  dict_of_id := h.dict_of_id
  held := h.held

end Memory

/-! ## Forgetting -/

namespace Memory

variable {lib : Library} {roots : List Dict} {scopes : Scopes} {m : Memory}

/-- What remembers less is as sound. -/
theorem Sound.forget {m' : Memory} (h : m.Sound lib roots scopes)
    (hcache : m'.cache.entries ⊆ m.cache.entries) (hfonts : m'.fonts ⊆ m.fonts)
    (hnext : m'.nextScope = m.nextScope) : m'.Sound lib roots scopes where
  decoded hmem := h.decoded (hcache hmem)
  font hs hmem := h.font hs (hfonts hmem)
  scopeIssued s hs := hnext ▸ h.scopeIssued s hs
  fontIssued e he := hnext ▸ h.fontIssued e (hfonts he)
  dict_of_id := h.dict_of_id
  held := h.held

theorem Sound.evict (h : m.Sound lib roots scopes) (refs : List ObjRef) :
    (m.evict refs).Sound lib roots scopes :=
  h.forget (m.cache.foldl_erase_sublist refs).subset (List.Subset.refl _) rfl

theorem Sound.forgetFonts (h : m.Sound lib roots scopes) (scope : Nat) :
    (m.forgetFonts scope).Sound lib roots scopes :=
  h.forget (List.Subset.refl _) List.filter_sublist.subset rfl

end Memory

namespace Scope

variable {lib : Library} {roots : List Dict}

theorem holds_entry {s : Scope} {category name : String} {o : Obj}
    (h : lib.HoldsDict roots s.dict) (ho : s.entry? lib category name = some o) :
    lib.Holds roots o := (Library.closed_holds lib roots).scopeEntry h ho

end Scope

theorem Scope.font?_apply (lib : Library) (name : String) (s : Scope) (m : Memory) :
    Scope.font? lib name s m =
      (match m.fonts.lookup (s.id, name) with
      | some font => pure (some font)
      | none =>
        match (s.entry? lib "Font" name).bind fun o => (lib.resolve o).dict? with
        | none => pure none
        | some d => do
          let font ← Font.read lib name d
          Run.change (Memory.keepFont s.id name font)
          pure (some font) : Run (Option Font)) m := rfl

/-- **Looking a font up in a scope through a sound memory is reading it afresh**, whether or not it
was remembered. -/
theorem Memory.Sound.scopeFont {lib : Library} {roots : List Dict} {scopes : Scopes} {m : Memory}
    {s : Scope} (name : String) (h : m.Sound lib roots scopes) (hco : lib.Coherent roots)
    (hs : s ∈ scopes) :
    (Scope.font? lib name s m).1 = s.fontAfresh lib name ∧
      (Scope.font? lib name s m).2.Sound lib roots scopes := by
  rw [Scope.font?_apply]
  cases hfind : m.fonts.lookup (s.id, name) with
  | some f =>
    obtain ⟨before, after, hfonts, _⟩ := List.lookup_eq_some_iff.mp hfind
    have hmem : ((s.id, name), f) ∈ m.fonts := by simp [hfonts]
    exact ⟨(h.font hs hmem).symm, h⟩
  | none =>
    unfold Scope.fontAfresh
    cases hd : (s.entry? lib "Font" name).bind fun o => (lib.resolve o).dict? with
    | none => exact ⟨rfl, h⟩
    | some d =>
      obtain ⟨o, ho, hod⟩ := Option.bind_eq_some_iff.mp hd
      have hheld : lib.HoldsDict roots d :=
        (Scope.holds_entry (h.held s hs) ho).resolve.dict hod
      obtain ⟨hval, hsound⟩ := h.readFont name hco hheld
      have hf : s.fontAfresh lib name = some <$> Font.afresh lib name d := by
        rw [Scope.fontAfresh, hd]
      dsimp only
      generalize Font.afresh lib name d = r at hval hf
      rcases r with p | f
      · rw [Run.bind_of_error hval]
        exact ⟨rfl, hsound⟩
      · rw [Run.bind_of_ok hval]
        exact ⟨rfl, hsound.keepFont hs hf⟩

end PdfScene
