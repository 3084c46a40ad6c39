import PdfScene.Filter.Flate

/-!
# The reader of zlib data that the program calls on (RFC 1950, RFC 1951)

Zlib data is a two-byte header, deflate blocks and a checksum. What follows the checksum is ignored.
Two endings that are no success are kept apart. Of data that breaks off, every byte that it determines
is handed over. Bytes are handed over by whole windows otherwise, so of data that contradicts the
format those before the window in which it does are.

No other module knows this reader. It is what `Inflater` stands for when the program runs.
-/

set_option autoImplicit false

namespace PdfScene.Inflate

/-- Why data cannot be read to its end. -/
inductive Fault where
  /-- The data breaks off. -/
  | truncated
  /-- The data contradicts the format. -/
  | corrupt
  deriving DecidableEq, Repr

/-! ## Bits -/

/-- Data read bit by bit, least significant bit of each byte first. -/
structure Bits where
  /-- The unread bits of the byte under way, and how many they are. -/
  current : Nat
  count : Nat
  rest : Bytes

/-- A reader of bits. -/
abbrev BitReader := StateT Bits (Except Fault)

namespace Bits

def bit : BitReader Nat := fun bits =>
  if bits.count = 0 then
    match bits.rest with
    | [] => .error .truncated
    | b :: rest => .ok (b.toNat % 2, ⟨b.toNat / 2, 7, rest⟩)
  else .ok (bits.current % 2, { bits with current := bits.current / 2, count := bits.count - 1 })

/-- A number of `n` bits, least significant first. -/
def number : Nat → BitReader Nat
  | 0 => pure 0
  | n + 1 => do
    let low ← bit
    let high ← number n
    pure (low + 2 * high)

/-- The bytes after the one under way. -/
def align (bits : Bits) : Bytes := bits.rest

def ofBytes (rest : Bytes) : Bits := ⟨0, 0, rest⟩

end Bits

/-! ## Huffman codes -/

/-- A canonical Huffman code: how many codes there are of each length from one on, and the symbols
in the order of their codes. -/
structure Huffman where
  counts : List Nat
  symbols : Array Nat

namespace Huffman

/-- The longest code. -/
def maxLength : Nat := 15

/-- The code that gives symbol i a code word of `lengths[i]` bits, none if that is zero. Lengths
that leave code words over are refused, unless they name one symbol or none; so are lengths that
ask for more code words than there are. -/
def ofLengths? (lengths : List Nat) : Option Huffman :=
  let counts := (List.range maxLength).map fun i => lengths.count (i + 1)
  let symbols := (List.range maxLength).flatMap fun i =>
    (lengths.zipIdx.filter fun entry => entry.1 = i + 1).map Prod.snd
  let used : Nat := counts.zipIdx.foldl (fun n entry => n + entry.1 * Nat.pow 2 (14 - entry.2)) 0
  if used = 0x8000 ∨ (used < 0x8000 ∧ symbols.length ≤ 1) then some ⟨counts, symbols.toArray⟩
  else none

/-- Reads a code word bit by bit: among the words of one length, `first` is the least and its symbol
is at `index`. -/
def walk (symbols : Array Nat) (code first index : Nat) : List Nat → BitReader Nat
  | [] => throw .corrupt
  | count :: counts => do
    let code := code + (← Bits.bit)
    if code < first + count then
      match symbols[index + (code - first)]? with
      | some symbol => pure symbol
      | none => throw .corrupt
    else walk symbols (code * 2) ((first + count) * 2) (index + count) counts

def read (h : Huffman) : BitReader Nat := walk h.symbols 0 0 0 h.counts

end Huffman

/-! ## Blocks -/

/-- The code for literals and lengths of a block that brings none. -/
def fixedLiterals : List Nat :=
  List.replicate 144 8 ++ List.replicate 112 9 ++ List.replicate 24 7 ++ List.replicate 8 8

/-- The code for distances of a block that brings none. -/
def fixedDistances : List Nat := List.replicate 32 5

/-- Least length and number of further bits for the symbols from 257 on. -/
def lengthBase : List (Nat × Nat) :=
  [(3, 0), (4, 0), (5, 0), (6, 0), (7, 0), (8, 0), (9, 0), (10, 0), (11, 1), (13, 1), (15, 1),
    (17, 1), (19, 2), (23, 2), (27, 2), (31, 2), (35, 3), (43, 3), (51, 3), (59, 3), (67, 4),
    (83, 4), (99, 4), (115, 4), (131, 5), (163, 5), (195, 5), (227, 5), (258, 0)]

/-- Least distance and number of further bits for each distance symbol. -/
def distanceBase : List (Nat × Nat) :=
  [(1, 0), (2, 0), (3, 0), (4, 0), (5, 1), (7, 1), (9, 2), (13, 2), (17, 3), (25, 3), (33, 4),
    (49, 4), (65, 5), (97, 5), (129, 6), (193, 6), (257, 7), (385, 7), (513, 8), (769, 8),
    (1025, 9), (1537, 9), (2049, 10), (3073, 10), (4097, 11), (6145, 11), (8193, 12), (12289, 12),
    (16385, 13), (24577, 13)]

/-- The order in which the lengths of the code for code lengths are stored. -/
def lengthOrder : List Nat := [16, 17, 18, 0, 8, 7, 9, 6, 10, 5, 11, 4, 12, 3, 13, 2, 14, 1, 15]

/-- The value of a symbol of a base table. -/
def based (table : List (Nat × Nat)) (symbol : Nat) : BitReader Nat :=
  match table[symbol]? with
  | some (base, extra) => do pure (base + (← Bits.number extra))
  | none => throw .corrupt

/-- Length and distance of a copy whose length symbol has been read. -/
def readCopy (distances : Huffman) (symbol : Nat) : BitReader (Nat × Nat) := do
  let length ← based lengthBase (symbol - 257)
  let distance ← based distanceBase (← distances.read)
  pure (length, distance)

/-- Appends `length` bytes, each as it stands `distance` bytes back. -/
def copy (output : Array UInt8) (distance : Nat) : Nat → Array UInt8
  | 0 => output
  | length + 1 => copy (output.push (output.getD (output.size - distance) 0)) distance length

/-- Reads the symbols of a block up to its end mark. Each takes a bit at least, so `room` is no less
than the bits left. -/
def symbols (literals distances : Huffman) (room : Nat) (output : Array UInt8) (bits : Bits) :
    Array UInt8 × Except Fault Bits :=
  match room with
  | 0 => (output, .error .truncated)
  | room + 1 =>
    match literals.read bits with
    | .error f => (output, .error f)
    | .ok (symbol, bits) =>
      if symbol < 256 then symbols literals distances room (output.push (UInt8.ofNat symbol)) bits
      else if symbol = 256 then (output, .ok bits)
      else
        match readCopy distances symbol bits with
        | .error f => (output, .error f)
        | .ok ((length, distance), bits) =>
          if output.size < distance then (output, .error .corrupt)
          else symbols literals distances room (copy output distance length) bits

/-- Reads `count` code lengths, which may repeat the length before them or zero. -/
def codeLengths (h : Huffman) (count : Nat) (room : Nat) (done : List Nat) :
    BitReader (List Nat) :=
  match room with
  | 0 => throw .truncated
  | room + 1 =>
    if done.length = count then pure done.reverse
    else if count < done.length then throw .corrupt
    else do
      let symbol ← h.read
      if symbol < 16 then codeLengths h count room (symbol :: done)
      else if symbol = 16 then
        match done with
        | [] => throw .corrupt
        | last :: _ =>
          let times ← Bits.number 2
          codeLengths h count room (List.replicate (times + 3) last ++ done)
      else
        let times ← if symbol = 17 then (· + 3) <$> Bits.number 3 else (· + 11) <$> Bits.number 7
        codeLengths h count room (List.replicate times 0 ++ done)

/-- A code, or the fault that its lengths are. -/
def huffman (lengths : List Nat) : BitReader Huffman :=
  match Huffman.ofLengths? lengths with
  | some h => pure h
  | none => throw .corrupt

/-- Reads the two codes that a block brings. -/
def readCodes : BitReader (Huffman × Huffman) := do
  let literals := (← Bits.number 5) + 257
  let distances := (← Bits.number 5) + 1
  let stored := (← Bits.number 4) + 4
  if 286 < literals ∨ 30 < distances then throw .corrupt
  let lengths ← (lengthOrder.take stored).mapM fun place => do pure (place, ← Bits.number 3)
  let h ← huffman ((List.range 19).map fun place => (lengths.lookup place).getD 0)
  let all ← codeLengths h (literals + distances) (literals + distances + 1) []
  let l ← huffman (all.take literals)
  let d ← huffman (all.drop literals)
  pure (l, d)

/-- A number of two bytes, least significant first. -/
def word (a b : UInt8) : Nat := a.toNat + 256 * b.toNat

/-- Reads a block of bytes that stand for themselves. -/
def stored (output : Array UInt8) (bits : Bits) : Array UInt8 × Except Fault Bits :=
  match bits.align with
  | a :: b :: c :: d :: rest =>
    let length := word a b
    if length + word c d ≠ 65535 then (output, .error .corrupt)
    else
      let output := output ++ (rest.take length).toArray
      if rest.length < length then (output, .error .truncated)
      else (output, .ok (.ofBytes (rest.drop length)))
  | _ => (output, .error .truncated)

/-- Reads a block that uses the codes that `codes` reads. -/
def coded (codes : BitReader (Huffman × Huffman)) (room : Nat) (output : Array UInt8)
    (bits : Bits) : Array UInt8 × Except Fault Bits :=
  match codes bits with
  | .error f => (output, .error f)
  | .ok ((l, d), bits) => symbols l d room output bits

/-- Reads blocks up to the last. Each takes a bit at least, so `room` is no less than the bits
left. -/
def blocks (room : Nat) (output : Array UInt8) (bits : Bits) : Array UInt8 × Except Fault Bits :=
  match room with
  | 0 => (output, .error .truncated)
  | room + 1 =>
    match (do pure (← Bits.bit, ← Bits.number 2) : BitReader (Nat × Nat)) bits with
    | .error f => (output, .error f)
    | .ok ((last, kind), bits) =>
      let (output, result) :=
        match kind with
        | 0 => stored output bits
        | 1 => coded (do pure (← huffman fixedLiterals, ← huffman fixedDistances)) room output bits
        | 2 => coded readCodes room output bits
        | _ => (output, .error .corrupt)
      match result with
      | .error f => (output, .error f)
      | .ok bits => if last = 1 then (output, .ok bits) else blocks room output bits

/-! ## The zlib frame -/

def adler32 (data : Array UInt8) : Nat :=
  let (a, b) := data.foldl
    (fun (sums : Nat × Nat) byte =>
      let a := (sums.1 + byte.toNat) % 65521
      (a, (sums.2 + a) % 65521)) (1, 0)
  b * 65536 + a

/-- Whether two bytes open zlib data: deflate, a window of at most 32 KiB, no preset dictionary, and
a header that is a multiple of 31. -/
def opens (cmf flg : UInt8) : Bool :=
  cmf.toNat % 16 == 8 && cmf.toNat / 16 ≤ 7 && flg.toNat / 32 % 2 == 0 &&
    (cmf.toNat * 256 + flg.toNat) % 31 == 0

/-- Reads what the data determines, and how its reading ends. -/
def read (data : Bytes) : Array UInt8 × Except Fault Unit :=
  match data with
  | cmf :: flg :: rest =>
    if opens cmf flg then
      match blocks (8 * rest.length + 1) #[] (.ofBytes rest) with
      | (output, .error f) => (output, .error f)
      | (output, .ok bits) =>
        match bits.align with
        | a :: b :: c :: d :: _ =>
          if Bytes.bigEndian [a, b, c, d] = adler32 output then (output, .ok ())
          else (output, .error .corrupt)
        | _ => (output, .error .truncated)
    else (#[], .error .corrupt)
  | _ => (#[], .error .truncated)

/-- The bytes of a window. -/
def window : Nat := 32768

def Fault.message : Fault → String
  | .truncated => "unexpected end of deflate stream"
  | .corrupt => "corrupt deflate stream"

/-- The reader. -/
def inflater : Inflater := fun data =>
  match read data with
  | (output, .ok ()) => (output.toList, none)
  | (output, .error .truncated) => (output.toList, some Fault.truncated.message)
  | (output, .error .corrupt) =>
    ((output.extract 0 (output.size / window * window)).toList, some Fault.corrupt.message)

end PdfScene.Inflate
