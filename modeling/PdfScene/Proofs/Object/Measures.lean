import PdfScene.Proofs.Lexical.Digits
import PdfScene.Proofs.Object.Reading

/-!
# Streams that state numbers

The dictionary of a stream says in numbers how its data is to be taken: how long it is, how many
objects it packs. `Measure` is such an entry as it is written, and `run_stream` reads a
stream whose dictionary is made of them.
-/

set_option autoImplicit false

namespace PdfScene

/-- An entry whose value is a number in digits, as it is written. -/
structure Measure where
  /-- The key with its slash. -/
  key : Bytes
  name : String
  value : Digits
  exact : value.value < 2 ^ 53
  key_read : ∀ rest, Lookahead.nextToken (key ++ 0x20 :: rest) = (.name name, 0x20 :: rest)

namespace Measure

variable (m : Measure)

def bytes : Bytes := m.key ++ 0x20 :: (m.value.bytes ++ [0x20])

/-- The value that is read. -/
def number : Obj := .num (Whole.double m.value.value)

def textOf (ms : List Measure) : Bytes := ms.flatMap bytes

/-- The dictionary with the entries of some measures. -/
def insertAll (d : Dict) (ms : List Measure) : Dict :=
  ms.foldl (fun d m => d.insert m.name m.number) d

end Measure

namespace Lookahead

theorem ofBytes_eq_run (bs : Bytes) : Obj.ofBytes bs = (run [] (ofBytes bs)).1 := rfl

/-- A dictionary on a line of its own is opened. -/
theorem leads_dictStart (rest : Bytes) :
    Leads [] (ofBytes (0x0A :: (Bytes.ofAscii "<<" ++ rest))) [.dict []] (ofBytes rest) := by
  have hnext : nextToken (0x0A :: (Bytes.ofAscii "<<" ++ rest)) = (.dictStart, rest) := by
    rw [nextToken_eq]
    rfl
  refine .step ?_ (.refl _ _)
  simp only [ofBytes, hnext]
  rfl

/-- A measure is a key and a number in view. -/
theorem ofBytes_measure (m : Measure) (rest : Bytes) :
    ofBytes (m.bytes ++ rest) = ⟨.name m.name, .num (Whole.double m.value.value), 0x20 :: rest⟩ := by
  have hsplit : m.bytes ++ rest = m.key ++ 0x20 :: (m.value.bytes ++ 0x20 :: rest) := by
    simp [Measure.bytes]
  rw [hsplit]
  simp only [ofBytes, m.key_read, nextToken_space, nextToken_digits m.value m.exact]

/-- A measure is read as an entry, unless what follows may make a reference of its number. -/
theorem leads_measure (m : Measure) (d : Dict) (outer : List Frame) {rest : Bytes}
    (hrest : ∀ x, (ofBytes rest).first ≠ .num x) :
    Leads (.dict d :: outer) (ofBytes (m.bytes ++ rest))
      (.dict (d.insert m.name m.number) :: outer) (ofBytes rest) := by
  obtain ⟨view, hview⟩ : ∃ view, view = (⟨.num (Whole.double m.value.value),
      (nextToken rest).1, (nextToken rest).2⟩ : Lookahead) := ⟨_, rfl⟩
  have hshift : view.shift = ofBytes rest := by rw [hview]; rfl
  have hkey : step (.dict d :: outer) (ofBytes (m.bytes ++ rest)) =
      .more (.entry d m.name :: outer) view := by
    rw [ofBytes_measure, hview]
    simp [step, shift, nextToken_space]
  have hnumber : number (Whole.double m.value.value) (ofBytes rest) =
      (m.number, ofBytes rest) := by
    unfold number
    split
    · exact absurd ‹_› (hrest _)
    · rfl
  have hvalue : step (.entry d m.name :: outer) view =
      .more (.dict (d.insert m.name m.number) :: outer) (ofBytes rest) := by
    have hfirst : view.first = .num (Whole.double m.value.value) := by rw [hview]
    simp only [step, opening, hfirst, hshift, hnumber, settle]
  exact .step hkey (.step hvalue (.refl _ _))

/-- So are several one after the other. -/
theorem leads_measures (ms : List Measure) (d : Dict) (outer : List Frame) {rest : Bytes}
    (hrest : ∀ x, (ofBytes rest).first ≠ .num x) :
    Leads (.dict d :: outer) (ofBytes (Measure.textOf ms ++ rest))
      (.dict (Measure.insertAll d ms) :: outer) (ofBytes rest) := by
  induction ms generalizing d with
  | nil => exact .refl _ _
  | cons m ms ih =>
    have htext : Measure.textOf (m :: ms) ++ rest = m.bytes ++ (Measure.textOf ms ++ rest) := by
      simp [Measure.textOf]
    have hnext : ∀ x, (ofBytes (Measure.textOf ms ++ rest)).first ≠ .num x := by
      cases ms with
      | nil => exact hrest
      | cons m' ms =>
        intro x h
        have hcons : Measure.textOf (m' :: ms) ++ rest = m'.bytes ++ (Measure.textOf ms ++ rest) := by
          simp [Measure.textOf]
        rw [hcons, ofBytes_measure] at h
        cases h
    rw [htext]
    exact (leads_measure m d outer hnext).trans (ih _)

/-- What follows a dictionary that is a stream's. -/
def streamStart : Bytes := Bytes.ofAscii ">>stream\n"

theorem ofBytes_streamStart (rest : Bytes) :
    ofBytes (streamStart ++ rest) = ⟨.dictEnd, .word "stream", 0x0A :: rest⟩ := by
  have hend : nextToken (streamStart ++ rest) = (.dictEnd, Bytes.ofAscii "stream" ++ 0x0A :: rest) := by
    rw [nextToken_eq]
    rfl
  have hword : nextToken (Bytes.ofAscii "stream" ++ 0x0A :: rest) = (.word "stream", 0x0A :: rest) := by
    rw [nextToken_eq]
    cbv
  simp only [ofBytes, hend, hword]

/-- **A dictionary of measures with data behind it is a stream**, if there can be room for the data. -/
theorem run_stream (ms : List Measure) (d : Dict) (rest : Bytes)
    (hroom : StreamBody.hasRoom (statedLength (Measure.insertAll d ms)) = true) :
    (run [.dict d] (ofBytes (Measure.textOf ms ++ (streamStart ++ rest)))).1 =
      .ok (.stream (Measure.insertAll d ms)
        (StreamBody.body (statedLength (Measure.insertAll d ms)) (0x0A :: rest)).1 none) := by
  have hstart : ∀ x, (ofBytes (streamStart ++ rest)).first ≠ .num x := by
    rw [ofBytes_streamStart]
    exact nofun
  have hclose : step [.dict (Measure.insertAll d ms)] (ofBytes (streamStart ++ rest)) =
      .done (.ok (.stream (Measure.insertAll d ms)
        (StreamBody.body (statedLength (Measure.insertAll d ms)) (0x0A :: rest)).1 none))
        (ofBytes (StreamBody.body (statedLength (Measure.insertAll d ms)) (0x0A :: rest)).2) := by
    rw [ofBytes_streamStart]
    simp only [step, close, if_true, StreamBody.scan_of_hasRoom hroom]
    rfl
  rw [(leads_measures ms d [] hstart).run_eq, run_of_done hclose]

end Lookahead

end PdfScene
