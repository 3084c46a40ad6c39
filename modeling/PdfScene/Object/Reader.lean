import PdfScene.Object.Basic
import PdfScene.Lexical.Raw

/-!
# Reading objects

An object is read with two tokens in view beside the input, which is what it takes to see the `R`
of a reference and the `stream` after a dictionary. What is under way is a stack of open
containers, innermost first; one step looks at the innermost one and the tokens in view, and
either opens a container, closes one, or hands a finished value to the container around it.

Damage is repaired where it can be: a malformed token is skipped, an array ends with the input,
a bad value is null. A dictionary without an end is an error, up to the value it stands in. A stream
whose body there can be no room for is a panic, whatever it stands in.
-/

set_option autoImplicit false

namespace PdfScene

/-- The next two well-formed tokens and the input after them. -/
structure Lookahead where
  first : Token
  second : Token
  rest : Bytes

namespace Lookahead

/-- The next well-formed token. Malformed ones are skipped. -/
def nextToken (bs : Bytes) : Token × Bytes :=
  match _h : Token.scan bs with
  | (.ok t, rest) => (t, rest)
  | (.error _, rest) => nextToken rest
termination_by bs.length
decreasing_by exact Token.scan_progress _h nofun

/-- Whether a token is one: the end of the input counts for nothing. -/
def count : Token → Nat
  | .eof => 0
  | _ => 1

/-- What is still to be read: the bytes, and the tokens in view. -/
def size (l : Lookahead) : Nat := l.rest.length + count l.first + count l.second

theorem nextToken_size_le (bs : Bytes) :
    (nextToken bs).2.length + count (nextToken bs).1 ≤ bs.length := by
  fun_induction nextToken bs with
  | case1 bs t rest h =>
    by_cases ht : t = .eof
    · subst ht
      have : Token.skipBlanks false bs = [] :=
        Token.skipBlanks_eq_nil_of_scan_eof (by rw [h])
      have hr : Token.scan bs = (.ok .eof, []) := by simp [Token.scan, this]
      rw [h] at hr
      simp only [Prod.mk.injEq, true_and] at hr
      simp [hr, count]
    · have := Token.scan_progress h (by simpa using ht)
      have : count t ≤ 1 := by cases t <;> simp [count]
      simp only; omega
  | case2 bs _ rest h ih =>
    have := Token.scan_progress h (by simp)
    omega

/-- The two tokens at the front of the input. -/
def ofBytes (bs : Bytes) : Lookahead :=
  let (first, rest) := nextToken bs
  let (second, rest) := nextToken rest
  ⟨first, second, rest⟩

def shift (l : Lookahead) : Lookahead :=
  let (next, rest) := nextToken l.rest
  ⟨l.second, next, rest⟩

theorem size_ofBytes_le (bs : Bytes) : (ofBytes bs).size ≤ bs.length := by
  have h1 := nextToken_size_le bs
  have h2 := nextToken_size_le (nextToken bs).2
  simp only [ofBytes, size]
  omega

theorem size_shift (l : Lookahead) : l.shift.size + count l.first ≤ l.size := by
  have := nextToken_size_le l.rest
  simp only [shift, size]
  omega

def hasMore (l : Lookahead) : Bool := count l.first != 0

/-! ## Containers under way -/

/-- A container that is open. -/
inductive Frame where
  /-- An array with the items read so far, latest first. -/
  | array (items : List Obj)
  /-- A dictionary between two entries. -/
  | dict (entries : Dict)
  /-- A dictionary whose next value is to be read. -/
  | entry (entries : Dict) (key : String)

/-- Where a step leads. -/
inductive Outcome where
  | more (stack : List Frame) (view : Lookahead)
  | done (result : Except Error Obj) (view : Lookahead)

/-- Hands a finished value, or the fault in its place, to the innermost container that can go on.
A faulty item costs the array it stands in, a faulty value only itself. -/
def settle (result : Except ObjectFault Obj) (view : Lookahead) : List Frame → Outcome
  | [] => .done (result.mapError .object) view
  | .array items :: stack =>
    match result with
    | .ok o => .more (.array (o :: items) :: stack) view
    | .error _ => settle result view stack
  | .entry entries key :: stack =>
    match result with
    | .ok o => .more (.dict (entries.insert key o) :: stack) view
    | .error _ => .more (.dict (entries.insert key .null) :: stack) view
  | .dict _ :: stack => settle result view stack

/-- The number `x` whose token has just been read, or the reference it opens. -/
def number (x : Float) (view : Lookahead) : Obj × Lookahead :=
  match view.first, view.second with
  | .num g, .word w =>
    if w = "R" && 0 ≤ x && 0 ≤ g then (.ref ⟨x.toUInt32, g.toUInt32⟩, view.shift.shift)
    else (.num x, view)
  | _, _ => (.num x, view)

/-- Reads the first token in view as the start of a value. -/
def opening (stack : List Frame) (view : Lookahead) : Outcome :=
  let after := view.shift
  match view.first with
  | .arrayStart => .more (.array [] :: stack) after
  | .dictStart => .more (.dict [] :: stack) after
  | .arrayEnd => settle (.error .arrayEnd) after stack
  | .dictEnd => settle (.error .dictEnd) after stack
  | .num x =>
    let (o, after) := number x after
    settle (.ok o) after stack
  | .eof => settle (.ok .eof) after stack
  | .bool b => settle (.ok (.bool b)) after stack
  | .null => settle (.ok .null) after stack
  | .str s => settle (.ok (.str s)) after stack
  | .hexStr s => settle (.ok (.hexStr s)) after stack
  | .name s => settle (.ok (.name s)) after stack
  | .word s => settle (.ok (.word s)) after stack

/-- The length of a stream's body that its dictionary states. -/
def statedLength (entries : Dict) : Option Nat :=
  ((entries.get? "Length").bind Obj.num?).bind fun x =>
    if 0 ≤ x then some x.toUInt64.toNat else none

/-- Closes the dictionary whose end is in view, together with the stream body behind it. -/
def close (entries : Dict) (stack : List Frame) (view : Lookahead) : Outcome :=
  match view.second with
  | .word w =>
    if w = "stream" then
      match StreamBody.scan (statedLength entries) view.rest with
      | .ok (data, rest) => settle (.ok (.stream entries data none)) (ofBytes rest) stack
      | .error p => .done (.error (.panic p)) view
    else settle (.ok (.dict entries)) view.shift stack
  | _ => settle (.ok (.dict entries)) view.shift stack

/-- One step of the innermost container. -/
def step (stack : List Frame) (view : Lookahead) : Outcome :=
  match stack with
  | .array items :: outer =>
    match view.first with
    | .arrayEnd => settle (.ok (.array items.reverse)) view.shift outer
    | .eof => settle (.ok (.array items.reverse)) view outer
    | .dictEnd => .more stack view.shift
    | _ => opening stack view
  | .dict entries :: outer =>
    match view.first with
    | .dictEnd => close entries outer view
    | .eof => settle (.error .unterminatedDict) view outer
    | .name key =>
      let after := view.shift
      match after.first with
      | .dictEnd => .more (.dict (entries.insert key .null) :: outer) after
      | .eof => .more (.dict (entries.insert key .null) :: outer) after
      | _ => .more (.entry entries key :: outer) after
    | _ => .more stack view.shift
  | _ => opening stack view

/-! ## Every step brings the end nearer -/

/-- What a container still costs: one step to close it, one more for a value under way. -/
def Frame.weight : Frame → Nat
  | .entry _ _ => 2
  | _ => 1

/-- What an open stack costs. -/
def weight : List Frame → Nat
  | [] => 0
  | f :: stack => f.weight + weight stack

theorem weight_cons (f : Frame) (stack : List Frame) :
    weight (f :: stack) = f.weight + weight stack := rfl

/-- What is left to do: the tokens, each of which may open a container, and the stack. -/
def budget (stack : List Frame) (view : Lookahead) : Nat := 2 * view.size + weight stack

theorem settle_eq_more {result : Except ObjectFault Obj} {view v : Lookahead}
    {stack s : List Frame} (h : settle result view stack = .more s v) :
    v = view ∧ weight s ≤ weight stack := by
  fun_induction settle result view stack with
  | case1 => simp at h
  | case2 =>
    simp only [Outcome.more.injEq] at h
    exact ⟨h.2.symm, by simp [← h.1, weight_cons, Frame.weight]⟩
  | case3 _ _ _ he ih =>
    have := ih (he ▸ h)
    exact ⟨this.1, by rw [weight_cons]; omega⟩
  | case4 =>
    simp only [Outcome.more.injEq] at h
    exact ⟨h.2.symm, by simp only [← h.1, weight_cons, Frame.weight]; omega⟩
  | case5 =>
    simp only [Outcome.more.injEq] at h
    exact ⟨h.2.symm, by simp only [← h.1, weight_cons, Frame.weight]; omega⟩
  | case6 _ _ ih =>
    have := ih h
    exact ⟨this.1, by rw [weight_cons]; omega⟩

theorem size_number_le (x : Float) (view : Lookahead) : (number x view).2.size ≤ view.size := by
  have h1 := size_shift view
  have h2 := size_shift view.shift
  unfold number
  split
  · split
    · simp only; omega
    · exact Nat.le_refl _
  · exact Nat.le_refl _

theorem opening_budget {stack s : List Frame} {view v : Lookahead}
    (h : opening stack view = .more s v) (read : count view.first = 1) :
    budget s v < budget stack view := by
  have shifted := size_shift view
  have done {r : Except ObjectFault Obj} {after : Lookahead} (hs : settle r after stack = .more s v)
      (ha : after.size ≤ view.shift.size) : budget s v < budget stack view := by
    obtain ⟨rfl, hw⟩ := settle_eq_more hs
    simp only [budget]; omega
  unfold opening at h
  dsimp only at h
  split at h
  · simp only [Outcome.more.injEq] at h
    obtain ⟨rfl, rfl⟩ := h
    simp only [budget, weight_cons, Frame.weight]; omega
  · simp only [Outcome.more.injEq] at h
    obtain ⟨rfl, rfl⟩ := h
    simp only [budget, weight_cons, Frame.weight]; omega
  · exact done h (Nat.le_refl _)
  · exact done h (Nat.le_refl _)
  · exact done h (size_number_le _ _)
  all_goals exact done h (Nat.le_refl _)

theorem close_budget {entries : Dict} {stack s : List Frame} {view v : Lookahead}
    (h : close entries stack view = .more s v) :
    budget s v < budget (.dict entries :: stack) view := by
  have shifted := size_shift view
  unfold close at h
  split at h
  · split at h
    · split at h
      · rename_i data rest hscan
        obtain ⟨rfl, hw⟩ := settle_eq_more h
        have h1 := size_ofBytes_le rest
        have h2 := StreamBody.scan_length_le hscan
        simp only [budget, weight_cons, Frame.weight]
        simp only [size] at h1 ⊢
        omega
      · cases h
    · obtain ⟨rfl, hw⟩ := settle_eq_more h
      simp only [budget, weight_cons, Frame.weight]; omega
  · obtain ⟨rfl, hw⟩ := settle_eq_more h
    simp only [budget, weight_cons, Frame.weight]; omega

theorem count_eq_one {t : Token} (h : t = .eof → False) : count t = 1 := by
  cases t with
  | eof => exact absurd rfl h
  | _ => rfl

theorem step_budget {stack s : List Frame} {view v : Lookahead}
    (h : step stack view = .more s v) : budget s v < budget stack view := by
  have shifted := size_shift view
  unfold step at h
  split at h
  · split at h
    · obtain ⟨rfl, hw⟩ := settle_eq_more h
      simp only [budget, weight_cons, Frame.weight]; omega
    · obtain ⟨rfl, hw⟩ := settle_eq_more h
      simp only [budget, weight_cons, Frame.weight]; omega
    · rename_i hd
      simp only [Outcome.more.injEq] at h
      obtain ⟨rfl, rfl⟩ := h
      have : count view.first = 1 := by rw [hd]; rfl
      simp only [budget]; omega
    · rename_i he _
      exact opening_budget h (count_eq_one he)
  · split at h
    · exact close_budget h
    · obtain ⟨rfl, hw⟩ := settle_eq_more h
      simp only [budget, weight_cons, Frame.weight]; omega
    · rename_i hn
      have : count view.first = 1 := by rw [hn]; rfl
      dsimp only at h
      split at h <;>
        (simp only [Outcome.more.injEq] at h
         obtain ⟨rfl, rfl⟩ := h
         simp only [budget, weight_cons, Frame.weight]; omega)
    · rename_i he _
      have := count_eq_one he
      simp only [Outcome.more.injEq] at h
      obtain ⟨rfl, rfl⟩ := h
      simp only [budget]; omega
  · by_cases he : view.first = .eof
    · unfold opening at h
      simp only [he] at h
      rename_i notArray notDict
      match stack with
      | [] => simp [settle] at h
      | .array _ :: _ => exact absurd rfl (notArray _ _)
      | .dict _ :: _ => exact absurd rfl (notDict _ _)
      | .entry _ _ :: _ =>
        simp only [settle, Outcome.more.injEq] at h
        obtain ⟨rfl, rfl⟩ := h
        simp only [budget, weight_cons, Frame.weight]; omega
    · exact opening_budget h (count_eq_one he)

/-! ## The reader -/

/-- Runs until the outermost value is finished. -/
def run (stack : List Frame) (view : Lookahead) : Except Error Obj × Lookahead :=
  match _h : step stack view with
  | .done result view => (result, view)
  | .more stack view => run stack view
termination_by budget stack view
decreasing_by exact step_budget _h

/-- The next object, and the view after it. -/
def readObject (view : Lookahead) : Except Error Obj × Lookahead := run [] view

/-- Reads a number that cannot be negative, or reports `fault`. -/
def readIndex (fault : ObjectFault) (view : Lookahead) : Except Error UInt32 × Lookahead :=
  match view.first with
  | .num x => (if 0 ≤ x then .ok x.toUInt32 else .error (.object fault), view.shift)
  | _ => (.error (.object fault), view.shift)

/-- Reads the word that has to be next, or reports `fault`. -/
def readWord (word : String) (fault : ObjectFault) (view : Lookahead) :
    Except Error Unit × Lookahead :=
  match view.first with
  | .word w => (if w = word then .ok () else .error (.object fault), view.shift)
  | _ => (.error (.object fault), view.shift)

/-- The view after a word, if that is next. -/
def skipWord (word : String) (view : Lookahead) : Lookahead :=
  match view.first with
  | .word w => if w = word then view.shift else view
  | _ => view

/-- The next definition of an object: a number, a generation, `obj`, the object and perhaps
`endobj`. A stream is given the reference it is defined under. -/
def readDefinition (view : Lookahead) : Except Error (ObjRef × Obj) × Lookahead :=
  match readIndex .noObjectNumber view with
  | (.error e, view) => (.error e, view)
  | (.ok num, view) =>
    match readIndex .noGeneration view with
    | (.error e, view) => (.error e, view)
    | (.ok generation, view) =>
      match readWord "obj" .noObjectKeyword view with
      | (.error e, view) => (.error e, view)
      | (.ok (), view) =>
        match readObject view with
        | (.error e, view) => (.error e, view)
        | (.ok o, view) =>
          (.ok (⟨num, generation⟩, o.definedUnder ⟨num, generation⟩), view.skipWord "endobj")

end Lookahead

/-- The first object of a piece of input. -/
def Obj.ofBytes (bs : Bytes) : Except Error Obj := (Lookahead.ofBytes bs).readObject.1

end PdfScene
