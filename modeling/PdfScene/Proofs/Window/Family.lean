import Mathlib
import PdfScene.Proofs.Window.Checked

/-!
# Families of windows

Windows that are cut out of one window, and out of those again, share a buffer, and each is read at a
position of its own. A `Family` is all of them in the order in which they were opened; a request goes to
any one of them. However a family has been used, each window in it lies in the buffer and inside the one
it was cut from (`Family.Sound`), so a call on it reads the bytes at its position and nothing else
(`run?_sound`).
-/

set_option autoImplicit false

namespace PdfScene.Window

/-- A window with the number of the one it was cut from. The first window is cut from itself. -/
structure Opened where
  window : Window
  parent : Nat

/-- The windows that have been opened, the first one first. -/
abbrev Family := List Opened

/-- A call on one window of a family. -/
structure Request where
  number : Nat
  call : Call
  deriving DecidableEq, Repr

/-- The windows that an answer opens. -/
def Reply.opened (r : Reply) : List Window :=
  match r.answer with
  | .ok (.window v) => [v]
  | _ => []

namespace Family

/-- The family with a window on `length` bytes from `start` as the only one. -/
def single (buffer : Array UInt8) (start length : Nat) : Family := [⟨of buffer start length, 0⟩]

/-- The family behind the reply that a window has given. -/
def update (f : Family) (number : Nat) (o : Opened) (r : Reply) : Family :=
  f.set number { o with window := r.window } ++ r.opened.map (⟨·, number⟩)

/-- The family behind a request. One that goes to no window is none. -/
def step? (f : Family) (r : Request) : Option Family :=
  match f[r.number]? with
  | some o => (o.window.call? r.call).map (f.update r.number o)
  | none => some f

def run? (f : Family) (requests : List Request) : Option Family := requests.foldlM step? f

/-- A window that lies inside another one, all in offsets of the buffer. -/
structure Inside (v w : Window) : Prop where
  start_le : w.start ≤ v.start
  stop_le : v.stop ≤ w.stop

/-- Each window lies in the buffer, and inside the one it was cut from. -/
structure Sound (buffer : Array UInt8) (f : Family) : Prop where
  sound : ∀ o ∈ f, o.window.Sound buffer
  inside : ∀ o ∈ f, ∃ p, f[o.parent]? = some p ∧ Inside o.window p.window

variable {buffer : Array UInt8} {f : Family} {o : Opened} {c : Call} {v w : Window}

/-- A window that a call opens lies inside. -/
theorem inside_of_opened (h : w.Sound buffer) (hv : v ∈ (w.reply c).opened) :
    v.Sound buffer ∧ Inside v w := by
  by_cases hfits : c.Fits w
  · rw [h.reply_of_fits hfits] at hv
    cases c with
    | sub start length =>
      cases List.mem_singleton.mp hv
      have hstop : start + length ≤ w.stop := hfits.2
      exact ⟨⟨h.buffer_eq, Nat.le_refl _, Nat.le_add_right _ _, Nat.le_trans hstop h.stop_le_size⟩,
        hfits.1, hstop⟩
    | _ => cases hv
  · rw [reply_of_not_fits hfits] at hv
    cases hv

theorem sound_single (buffer : Array UInt8) (start length : Nat) :
    (single buffer start length).Sound buffer where
  sound o ho := by
    cases List.mem_singleton.mp ho
    exact sound_of buffer start length
  inside o ho := by
    cases List.mem_singleton.mp ho
    exact ⟨_, rfl, Nat.le_refl _, Nat.le_refl _⟩

/-- A window that has been read is still where it was, so what lay inside it does. -/
theorem exists_parent_update (h : o.window.Sound buffer) {n k : Nat} (ho : f[n]? = some o) {p : Opened}
    (hp : f[k]? = some p) (hinside : Inside v p.window) :
    ∃ p', (f.update n o (o.window.reply c))[k]? = some p' ∧ Inside v p'.window := by
  obtain ⟨hn, -⟩ := List.getElem?_eq_some_iff.mp ho
  obtain ⟨hk, -⟩ := List.getElem?_eq_some_iff.mp hp
  rw [update, List.getElem?_append_left (by rwa [List.length_set])]
  by_cases hkn : n = k
  · subst hkn
    cases ho.symm.trans hp
    obtain ⟨pos, hwindow⟩ := h.exists_pos c
    refine ⟨_, List.getElem?_set_self hn, ?_⟩
    rw [hwindow]
    exact ⟨hinside.start_le, hinside.stop_le⟩
  · exact ⟨p, by rw [List.getElem?_set_ne hkn, hp], hinside⟩

/-- **What holds of a family holds behind a reply.** -/
theorem Sound.update (h : f.Sound buffer) {n : Nat} (ho : f[n]? = some o) (c : Call) :
    (f.update n o (o.window.reply c)).Sound buffer := by
  have hmem : o ∈ f := List.mem_of_getElem? ho
  have hsound : o.window.Sound buffer := h.sound o hmem
  refine ⟨fun o' ho' => ?_, fun o' ho' => ?_⟩
  · rcases List.mem_append.mp ho' with hset | hopened
    · rcases List.mem_or_eq_of_mem_set hset with hold | rfl
      · exact h.sound o' hold
      · exact hsound.window_reply c
    · obtain ⟨v, hv, rfl⟩ := List.mem_map.mp hopened
      exact (inside_of_opened hsound hv).1
  · rcases List.mem_append.mp ho' with hset | hopened
    · rcases List.mem_or_eq_of_mem_set hset with hold | rfl
      · obtain ⟨p, hp, hinside⟩ := h.inside o' hold
        exact exists_parent_update hsound ho hp hinside
      -- the window that has been read is where it was
      · obtain ⟨p, hp, hinside⟩ := h.inside o hmem
        obtain ⟨pos, hwindow⟩ := hsound.exists_pos c
        refine exists_parent_update hsound ho hp ?_
        rw [hwindow]
        exact ⟨hinside.start_le, hinside.stop_le⟩
    · obtain ⟨v, hv, rfl⟩ := List.mem_map.mp hopened
      exact exists_parent_update hsound ho ho (inside_of_opened hsound hv).2

theorem Sound.step? (h : f.Sound buffer) (hsize : buffer.size < 2 ^ 63) {r : Request}
    (hsmall : r.call.Small) : ∃ f', f.step? r = some f' ∧ f'.Sound buffer := by
  unfold Family.step?
  split
  · rename_i o ho
    have hcall := (h.sound o (List.mem_of_getElem? ho)).call?_eq hsize hsmall
    rw [hcall]
    exact ⟨_, rfl, h.update ho r.call⟩
  · exact ⟨f, rfl, h⟩

theorem Sound.run? (h : f.Sound buffer) (hsize : buffer.size < 2 ^ 63) {requests : List Request}
    (hsmall : ∀ r ∈ requests, r.call.Small) : ∃ f', f.run? requests = some f' ∧ f'.Sound buffer := by
  induction requests generalizing f with
  | nil => exact ⟨f, rfl, h⟩
  | cons r requests ih =>
    rw [List.forall_mem_cons] at hsmall
    obtain ⟨f', hstep, hf'⟩ := h.step? hsize hsmall.1
    obtain ⟨f'', hrun, hf''⟩ := ih hf' hsmall.2
    refine ⟨f'', ?_, hf''⟩
    rw [Family.run?, List.foldlM_cons, hstep]
    exact hrun

/-- **Windows hold.** Let a window have been opened on any part of a buffer, and it and the windows cut
from it, and from those, have been used in any way, with numbers far below the size of a word. Nothing was
out of range. Each window and its position lie in the buffer, and the window inside the one it was cut
from. The next call on any of them is not out of range either, and comes to what the functions on windows
give. If there is room for it, it does what it says, and the bytes it answers are those of the buffer at
its position; if not, it fails and leaves the window as it was, as looking at a byte always does. -/
theorem run?_sound (buffer : Array UInt8) (start length : Nat) (requests : List Request)
    (hsize : buffer.size < 2 ^ 63) (hsmall : ∀ r ∈ requests, r.call.Small) :
    ∃ f, (single buffer start length).run? requests = some f ∧
      (∀ o ∈ f, o.window.buffer = buffer ∧ o.window.start ≤ o.window.pos ∧
        o.window.pos ≤ o.window.start + o.window.length ∧
        o.window.start + o.window.length ≤ buffer.size) ∧
      (∀ o ∈ f, ∃ p, f[o.parent]? = some p ∧ p.window.start ≤ o.window.start ∧
        o.window.stop ≤ p.window.stop) ∧
      ∀ o ∈ f, ∀ c : Call, c.Small →
        let w := o.window
        let r := w.reply c
        w.call? c = some r ∧
          (c.Fits w → r = ⟨.ok (c.result w), { w with pos := c.target w }⟩ ∧
            (w.ahead c.count).length = c.count ∧
            ∀ i < c.count, (w.ahead c.count)[i]? = buffer[w.pos + i]?) ∧
          (¬ c.Fits w → (∃ e, r.answer = .error e) ∧ r.window = w) ∧
          (c = .peek → r.window = w) := by
  obtain ⟨f, hrun, hf⟩ := (sound_single buffer start length).run? hsize hsmall
  refine ⟨f, hrun, fun o ho => ?_, fun o ho => ?_, fun o ho c hc => ?_⟩
  · have h := hf.sound o ho
    exact ⟨h.buffer_eq, h.start_le_pos, h.pos_le_stop, h.stop_le_size⟩
  · obtain ⟨p, hp, hinside⟩ := hf.inside o ho
    exact ⟨p, hp, hinside.start_le, hinside.stop_le⟩
  · intro w r
    have hw : w.Sound buffer := hf.sound o ho
    refine ⟨hw.call?_eq hsize hc, fun hfits => ⟨hw.reply_of_fits hfits, ?_, fun i => hw.getElem?_ahead⟩,
      fun hfits => ?_, fun hpeek => ?_⟩
    · exact hw.length_ahead (hw.count_le hfits)
    · have hr : r = w.refused c := reply_of_not_fits hfits
      rw [hr]
      exact ⟨⟨_, rfl⟩, rfl⟩
    · subst hpeek
      exact hw.window_peek

/-- A window in a window, cut down to the buffer, from which one more byte is asked for than it has. -/
theorem run?_sound_nested :
    let buffer : Array UInt8 := #[10, 20, 30, 40, 50]
    let requests : List Request :=
      [⟨0, .get⟩, ⟨0, .sub 2 3⟩, ⟨1, .take 1⟩, ⟨1, .take 9⟩, ⟨1, .sub 3 1⟩, ⟨2, .get⟩]
    let last : Window := ⟨buffer, 3, 1, 4⟩
    buffer.size < 2 ^ 63 ∧ (∀ r ∈ requests, r.call.Small) ∧ Call.get.Small ∧ ¬ Call.get.Fits last ∧
      ∃ f, (single buffer 1 100).run? requests = some f ∧
        f = [⟨⟨buffer, 1, 4, 2⟩, 0⟩, ⟨⟨buffer, 2, 3, 3⟩, 0⟩, ⟨last, 1⟩] ∧
        (∀ o ∈ f, ∃ p, f[o.parent]? = some p ∧ p.window.start ≤ o.window.start ∧
          o.window.stop ≤ p.window.stop) ∧
        (∃ e, (last.reply .get).answer = .error e) ∧ (last.reply .get).window = last := by
  intro buffer requests last
  have hsize : buffer.size < 2 ^ 63 := by decide
  have hsmall : ∀ r ∈ requests, r.call.Small := by decide
  have hget : Call.get.Small := by decide
  have hfits : ¬ Call.get.Fits last := Nat.lt_irrefl 4
  obtain ⟨f, hrun, -, hinside, hnext⟩ := run?_sound buffer 1 100 requests hsize hsmall
  have hf : f = [⟨⟨buffer, 1, 4, 2⟩, 0⟩, ⟨⟨buffer, 2, 3, 3⟩, 0⟩, ⟨last, 1⟩] :=
    Option.some.inj (hrun.symm.trans rfl)
  have hlast : ⟨last, 1⟩ ∈ f := by
    rw [hf]
    exact List.mem_of_getElem? (i := 2) rfl
  exact ⟨hsize, hsmall, hget, hfits, f, hrun, hf, hinside, (hnext _ hlast .get hget).2.2.1 hfits⟩

end Family

end PdfScene.Window
