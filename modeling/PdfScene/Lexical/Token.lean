import PdfScene.Error
import PdfScene.Lexical.Numeral
import PdfScene.Lexical.Quoted
import PdfScene.Lexical.Name

/-!
# Tokens

`Token.scan` cuts one token off the front of the input and returns what follows it. Malformed
input is an error that costs its own bytes and no more, so a reader can go on with the rest. Every
scan but the one at the end of the input leaves less than it was given (`scan_progress`), which is why
every loop over tokens ends.
-/

set_option autoImplicit false

namespace PdfScene

/-- The pieces that objects and operations are written in. -/
inductive Token where
  | eof
  | bool (b : Bool)
  | null
  | num (x : Float)
  | str (bytes : Bytes)
  | hexStr (bytes : Bytes)
  | name (text : String)
  | word (text : String)
  | arrayStart
  | arrayEnd
  | dictStart
  | dictEnd

namespace Token

open Byte

/-- What follows the blanks and comments at the front. A comment runs to the end of its line. -/
def skipBlanks (inComment : Bool) : Bytes → Bytes
  | [] => []
  | c :: rest =>
    if inComment then skipBlanks (!isLineEnd c) rest
    else if c == 0x25 then skipBlanks true rest
    else if isBlank c then skipBlanks false rest
    else c :: rest

theorem skipBlanks_length_le (inComment : Bool) (bs : Bytes) :
    (skipBlanks inComment bs).length ≤ bs.length := by
  fun_induction skipBlanks inComment bs with
  | case1 => simp
  | case2 _ _ ih => simp only [List.length_cons]; omega
  | case3 _ _ _ _ _ ih => simp only [List.length_cons]; omega
  | case4 _ _ _ _ _ _ ih => simp only [List.length_cons]; omega
  | case5 => simp

/-- The longest word, in bytes of its text. -/
def wordLimit : Nat := 128

def ofWord (word : Bytes) : Token :=
  let text := Bytes.latin1 word
  if text = "true" then .bool true
  else if text = "false" then .bool false
  else if text = "null" then .null
  else .word text

/-- A word, which runs to the next blank or delimiter. It is too long if its text without the
last character fills the limit. -/
def scanWord (bs : Bytes) : Except TokenFault Token × Bytes :=
  let word := bs.takeWhile fun b => !endsToken b
  let rest := bs.dropWhile fun b => !endsToken b
  if wordLimit ≤ Bytes.latin1Utf8Size word.dropLast then (.error .wordTooLong, rest)
  else (.ok (ofWord word), rest)

/-- The token that starts with the byte `c`. -/
def scanFrom (c : UInt8) (rest : Bytes) : Except TokenFault Token × Bytes :=
  if opensNumeral c then
    let (x, rest) := Numeral.scan (c :: rest)
    (.ok (.num x), rest)
  else if c == 0x28 then
    let (s, rest) := LiteralString.scan rest
    (.ok (.str s), rest)
  else if c == 0x2F then
    let (s, rest) := Name.scan rest
    (.ok (.name s), rest)
  else if c == 0x5B then (.ok .arrayStart, rest)
  else if c == 0x5D then (.ok .arrayEnd, rest)
  else if c == 0x3C then
    if rest.head? == some 0x3C then (.ok .dictStart, rest.tail)
    else
      let (s, rest) := HexString.scan rest
      (.ok (.hexStr s), rest)
  else if c == 0x3E then
    if rest.head? == some 0x3E then (.ok .dictEnd, rest.tail) else (.error .strayGreater, rest)
  else if c == 0x7B || c == 0x7D then (.ok (.word (Bytes.latin1 [c])), rest)
  else if c == 0x29 then (.error .unbalancedParen, rest)
  else scanWord (c :: rest)

/-- The first token and what follows it. -/
def scan (bs : Bytes) : Except TokenFault Token × Bytes :=
  match skipBlanks false bs with
  | [] => (.ok .eof, [])
  | c :: rest => scanFrom c rest

/-! ## Every scan makes progress -/

theorem scanFrom_length_lt (c : UInt8) (rest : Bytes) (blank : isBlank c = false)
    (percent : (c == 0x25) = false) : (scanFrom c rest).2.length < (c :: rest).length := by
  unfold scanFrom
  split
  · rename_i h; exact Numeral.scan_length_lt c rest h
  split
  · have := LiteralString.body_length_le 1 [] rest
    simp only [LiteralString.scan, List.length_cons]; omega
  split
  · have := Name.body_length_le [] rest
    simp only [Name.scan, List.length_cons]; omega
  split
  · simp
  split
  · simp
  split
  · split
    · simp only [List.length_tail, List.length_cons]; omega
    · have := HexString.body_length_le none [] rest
      simp only [HexString.scan, List.length_cons]; omega
  split
  · split <;> simp only [List.length_tail, List.length_cons] <;> omega
  split
  · simp
  split
  · simp
  rename_i h28 h2F h5B h5D h3C h3E curly h29
  have ends : endsToken c = false := by
    simp only [Bool.or_eq_true, not_or, Bool.not_eq_true] at *
    simp only [endsToken, isDelimiter, blank, percent, h28, h29, h2F, h5B, h5D, h3C, h3E, curly.1,
      curly.2, Bool.or_self]
  have := (List.dropWhile_sublist (fun b => !endsToken b) (l := rest)).length_le
  unfold scanWord
  dsimp only
  split <;> simp only [List.dropWhile_cons, ends, Bool.not_false, if_true, List.length_cons] <;>
    omega

/-- What is left after blanks and comments starts a token. -/
theorem skipBlanks_eq_cons {inComment : Bool} {bs rest : Bytes} {c : UInt8}
    (h : skipBlanks inComment bs = c :: rest) : isBlank c = false ∧ (c == 0x25) = false := by
  fun_induction skipBlanks inComment bs with
  | case1 => simp at h
  | case2 _ _ ih => exact ih h
  | case3 _ _ _ _ _ ih => exact ih h
  | case4 _ _ _ _ _ _ ih => exact ih h
  | case5 _ _ _ _ h25 hb =>
    simp only [List.cons.injEq] at h
    obtain ⟨rfl, rfl⟩ := h
    simp only [Bool.not_eq_true] at h25 hb
    exact ⟨hb, h25⟩

/-- A scan that finds any token or error leaves less than it was given. -/
theorem scan_length_lt (bs : Bytes) (h : skipBlanks false bs ≠ []) :
    (scan bs).2.length < bs.length := by
  unfold scan
  split
  · contradiction
  · rename_i c rest hs
    have h1 := skipBlanks_eq_cons hs
    have h2 := scanFrom_length_lt c rest h1.1 h1.2
    have h3 := skipBlanks_length_le false bs
    rw [hs] at h3
    omega

theorem ofWord_ne_eof (word : Bytes) : ofWord word ≠ .eof := by
  unfold ofWord
  dsimp only
  repeat' split
  all_goals simp

theorem scanFrom_ne_eof (c : UInt8) (rest : Bytes) : (scanFrom c rest).1 ≠ .ok .eof := by
  unfold scanFrom scanWord
  dsimp only
  repeat' split
  all_goals simp [ofWord_ne_eof]

/-- Only the end of the input is read as such. -/
theorem skipBlanks_eq_nil_of_scan_eof {bs : Bytes} (h : (scan bs).1 = .ok .eof) :
    skipBlanks false bs = [] := by
  unfold scan at h
  split at h
  · assumption
  · exact absurd h (scanFrom_ne_eof _ _)

/-- A scan that is not the end of the input leaves less than it was given. -/
theorem scan_progress {bs rest : Bytes} {r : Except TokenFault Token} (h : scan bs = (r, rest))
    (hr : r ≠ .ok .eof) : rest.length < bs.length := by
  have := scan_length_lt bs (fun hs => hr (by
    have : scan bs = (.ok .eof, []) := by simp [scan, hs]
    rw [this] at h
    exact (Prod.mk.inj h).1.symm))
  rw [h] at this
  exact this

end Token

end PdfScene
