import Mathlib
import PdfScene.Lexical.Tokens

/-!
# The list of all tokens

`readAll` takes the tokens of its input one after the other, so what is written token by token is read
back token by token (`readAll_of_scan`). Hex strings and brackets end by themselves; a word needs a
blank or a delimiter behind it.
-/

set_option autoImplicit false

namespace PdfScene

open Byte

namespace Token

/-- What has been read is only put in front of what follows. -/
theorem readFrom_eq (done : Array Token) (bs : Bytes) : readFrom done bs = done ++ readFrom #[] bs := by
  induction hn : bs.length using Nat.strongRecOn generalizing done bs with
  | ind n ih =>
    subst hn
    rw [readFrom, readFrom]
    split
    · rename_i fault rest h
      exact ih _ (scan_progress h fun heq => by cases heq) done rest rfl
    · rename_i t rest h
      split
      · simp
      · rename_i hmore
        have hne : t ≠ .eof := by
          rintro rfl
          exact hmore h rfl HEq.rfl
        have hless := scan_progress h fun heq => hne (Except.ok.inj heq)
        rw [dif_neg Bool.false_ne_true, dif_neg Bool.false_ne_true, ih _ hless _ rest rfl,
          ih _ hless (#[].push t) rest rfl]
        simp

/-- The first token of the input and then those of the rest. -/
theorem readAll_of_scan {bs rest : Bytes} {t : Token} (h : scan bs = (.ok t, rest)) (ht : t ≠ .eof) :
    readAll bs = t :: readAll rest := by
  rw [readAll, readFrom]
  split
  · rename_i hscan
    cases h.symm.trans hscan
  · rename_i hscan
    obtain ⟨hok, rfl⟩ := Prod.mk.inj (h.symm.trans hscan)
    cases hok
    rw [dif_neg (by cases t <;> first | exact absurd rfl ht | exact Bool.false_ne_true), readFrom_eq]
    simp [readAll]

/-- Damage is skipped. -/
theorem readAll_of_error {bs rest : Bytes} {fault : TokenFault} (h : scan bs = (.error fault, rest)) :
    readAll bs = readAll rest := by
  rw [readAll, readFrom]
  split
  · rename_i hscan
    cases h.symm.trans hscan
    rfl
  · rename_i hscan
    cases h.symm.trans hscan

theorem readAll_of_eof {bs rest : Bytes} (h : scan bs = (.ok .eof, rest)) : readAll bs = [] := by
  rw [readAll, readFrom]
  split
  · rename_i hscan
    cases h.symm.trans hscan
  · rename_i hscan
    cases h.symm.trans hscan
    rfl

@[simp]
theorem readAll_nil : readAll [] = [] := readAll_of_eof (show scan [] = (.ok .eof, []) from rfl)

theorem readAll_lineFeed (rest : Bytes) : readAll (0x0A :: rest) = readAll rest := by
  have hscan : scan (0x0A :: rest) = scan rest := rfl
  rcases h : scan rest with ⟨fault | t, rest'⟩
  · rw [readAll_of_error h, readAll_of_error (hscan.trans h)]
  · by_cases ht : t = .eof
    · subst ht
      rw [readAll_of_eof h, readAll_of_eof (hscan.trans h)]
    · rw [readAll_of_scan h ht, readAll_of_scan (hscan.trans h) ht]

/-- A line that holds one token. -/
theorem readAll_line {line rest : Bytes} {t : Token}
    (h : scan (line ++ 0x0A :: rest) = (.ok t, 0x0A :: rest)) (ht : t ≠ .eof) :
    readAll (line ++ 0x0A :: rest) = t :: readAll rest := by
  rw [readAll_of_scan h ht, readAll_lineFeed]

/-- What is written entry by entry is read back so if each entry is, whatever comes behind it. -/
theorem readAll_flatMap {ε : Type} {written : ε → Bytes} {tokens : ε → List Token}
    (h : ∀ e rest, readAll (written e ++ rest) = tokens e ++ readAll rest) (es : List ε) (rest : Bytes) :
    readAll (es.flatMap written ++ rest) = es.flatMap tokens ++ readAll rest := by
  induction es with
  | nil => rfl
  | cons e es ih => rw [List.flatMap_cons, List.append_assoc, h, ih, List.flatMap_cons, List.append_assoc]

/-- A hex string that is no start of a dictionary. -/
theorem scanFrom_hexStr {rest : Bytes} (h : rest.head? ≠ some 0x3C) :
    scanFrom 0x3C rest = (.ok (.hexStr (HexString.scan rest).1), (HexString.scan rest).2) := by
  simp [scanFrom, opensNumeral, isDigit, h]

theorem readAll_arrayStart (rest : Bytes) : readAll (0x5B :: rest) = .arrayStart :: readAll rest :=
  readAll_of_scan rfl nofun

theorem readAll_arrayEnd (rest : Bytes) : readAll (0x5D :: rest) = .arrayEnd :: readAll rest :=
  readAll_of_scan rfl nofun

end Token

namespace HexString

/-- The digit of a number below sixteen. -/
def digit (n : UInt8) : UInt8 := if n < 10 then 0x30 + n else 0x37 + n

/-- The two digits of a byte. -/
def digits (b : UInt8) : Bytes := [digit (b >>> 4), digit (b &&& 0xF)]

/-- A hex string as it is written. -/
def written (bs : Bytes) : Bytes := 0x3C :: (bs.flatMap digits ++ [0x3E])

theorem halves (b : UInt8) : b >>> 4 < 16 ∧ b &&& 0xF < 16 ∧ (b >>> 4) <<< 4 ||| (b &&& 0xF) = b := by
  have hall : ∀ n : Fin 256, let b := UInt8.ofNat n
      b >>> 4 < 16 ∧ b &&& 0xF < 16 ∧ (b >>> 4) <<< 4 ||| (b &&& 0xF) = b := by
    decide +kernel
  simpa using hall ⟨b.toNat, b.toNat_lt⟩

/-- A digit is no bracket and has its value. -/
theorem hexValue?_digit {n : UInt8} (h : n < 16) :
    digit n ≠ 0x3C ∧ digit n ≠ 0x3E ∧ hexValue? (digit n) = some n := by
  have hall : ∀ n : Fin 16, let n := UInt8.ofNat n
      digit n ≠ 0x3C ∧ digit n ≠ 0x3E ∧ hexValue? (digit n) = some n := by
    decide +kernel
  simpa using hall ⟨n.toNat, UInt8.lt_iff_toNat_lt.mp h⟩

theorem body_written (bs done rest : Bytes) :
    body none done (bs.flatMap digits ++ 0x3E :: rest) = (done.reverse ++ bs, rest) := by
  induction bs generalizing done with
  | nil => simp [body, body.flush]
  | cons b bs ih =>
    obtain ⟨hhigh, hlow, hjoined⟩ := halves b
    obtain ⟨-, hhighEnd, hhighValue⟩ := hexValue?_digit hhigh
    obtain ⟨-, hlowEnd, hlowValue⟩ := hexValue?_digit hlow
    simp [digits, body, hhighEnd, hlowEnd, hhighValue, hlowValue, hjoined, ih]

/-- A hex string that is written is read back, whatever comes behind it. -/
theorem scan_written (bs rest : Bytes) :
    Token.scan (written bs ++ rest) = (.ok (.hexStr bs), rest) := by
  have hfirst : (bs.flatMap digits ++ 0x3E :: rest).head? ≠ some 0x3C := by
    cases bs with
    | nil => simp
    | cons b bs => simpa [digits] using (hexValue?_digit (halves b).1).1
  have hscan : Token.scan (written bs ++ rest) =
      Token.scanFrom 0x3C (bs.flatMap digits ++ 0x3E :: rest) := by
    simp [written, Token.scan, Token.skipBlanks, isBlank]
  rw [hscan, Token.scanFrom_hexStr hfirst, scan, body_written]
  rfl

theorem readAll_written (bs rest : Bytes) :
    Token.readAll (written bs ++ rest) = .hexStr bs :: Token.readAll rest :=
  Token.readAll_of_scan (scan_written bs rest) nofun

end HexString

end PdfScene
