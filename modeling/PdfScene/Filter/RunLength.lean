import PdfScene.Bytes

/-!
# RunLengthDecode

Data is chunks. A length byte n below 128 is followed by n + 1 bytes that stand for themselves, one
above 128 by a byte that stands for 257 - n copies of itself, and 128 ends the data. A chunk that is
cut off gives what it still determines.
-/

set_option autoImplicit false

namespace PdfScene.RunLength

/-- The bytes of the chunks in `data`, after those in `done` (latest first). -/
def body (done : Bytes) (data : Bytes) : Bytes :=
  match data with
  | [] => done.reverse
  | n :: rest =>
    if n == 128 then done.reverse
    else if n < 128 then
      body ((rest.take (n.toNat + 1)).reverse ++ done) (rest.drop (n.toNat + 1))
    else
      match rest with
      | [] => done.reverse
      | b :: rest => body (List.replicate (257 - n.toNat) b ++ done) rest
termination_by data.length
decreasing_by
  · simp only [List.length_drop, List.length_cons]; omega
  · simp only [List.length_cons]; omega

def decode (data : Bytes) : Bytes := body [] data

end PdfScene.RunLength
