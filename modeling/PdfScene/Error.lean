import PdfScene.Bytes

/-!
# Errors, as causes

Everything that can go wrong while a file is read is one constructor here, with the values its
report needs. What the report says is decided in one place, `Error.message`. An error is local: a
malformed token costs one token, a rejected operation one operation, a broken stream one page.

A panic is the exception. It ends the program wherever it comes up, so whatever answers errors with
something else passes a panic on. How much memory there is, and how deep calls may be nested, is not
asked here: a program that runs out of either ends as well.
-/

set_option autoImplicit false

namespace PdfScene

/-- Why a piece of input is no token. -/
inductive TokenFault where
  | strayGreater
  | unbalancedParen
  | wordTooLong
  deriving DecidableEq, Repr

/-- Why tokens or dictionaries do not make the object that is wanted. -/
inductive ObjectFault where
  | arrayEnd
  | dictEnd
  | unterminatedDict
  | noObjectNumber
  | noGeneration
  | noObjectKeyword
  /-- A packed-object stream that does not say how many objects it holds or where they start. -/
  | noPackedHeader
  | imageSize (width height : Int)
  deriving DecidableEq, Repr

/-- Why encoded data cannot be decoded. -/
inductive DecodeFault where
  | unsupportedFilter
  /-- What the reader of zlib data says of it. -/
  | zlib (reason : String)
  | unknownPredictor (predictor : Int)
  | invalidByte (byte : UInt8)
  | groupOutOfRange
  | invalidCode (code : Nat)
  | notJpeg
  | pixelLimit (width height : Nat)
  | widthOutOfRange
  | heightOutOfRange
  | missingSamples (image found expected : Nat)
  deriving DecidableEq, Repr

/-- Why an operation has no effect. -/
inductive OperandFault where
  | wrongOperand (index : Nat) (expected : String)
  | notFound (what : String) (name : String)
  | outOfRange (value : Int)
  deriving DecidableEq, Repr

/-- What a document cannot do without. -/
inductive Missing where
  | catalog
  | pageTree
  | page (index count : Nat)
  deriving DecidableEq, Repr

/-- Why the program ends. -/
inductive Panic where
  /-- Room is asked for, for more bytes than can be addressed. -/
  | capacityOverflow
  /-- Data is cut into rows of no bytes. -/
  | emptyRows
  /-- A colour is asked for a component that there is not. -/
  | missingComponent
  deriving DecidableEq, Repr

/-- Any error of this library. -/
inductive Error where
  | endOfInput
  | byteRange (first last : Nat)
  | position (pos length : Nat)
  | token (pos : Nat) (fault : TokenFault)
  | operation (operator : String) (fault : OperandFault)
  | decode (filter : String) (fault : DecodeFault)
  | missing (what : Missing)
  | object (fault : ObjectFault)
  /-- No error, but the end of the program. -/
  | panic (p : Panic)
  deriving DecidableEq, Repr

/-- A result as something that can be answered, or the panic that it is. -/
def Panic.apart {α : Type} : Except Error α → Except Panic (Except Error α)
  | .error (.panic p) => .error p
  | r => .ok r

/-- A byte in two lower-case hex digits. -/
def hexByte (b : UInt8) : String :=
  let digit (n : Nat) : Char := (Nat.digitChar n)
  String.ofList [digit (b.toNat / 16), digit (b.toNat % 16)]

def TokenFault.message : TokenFault → String
  | .strayGreater => "stray '>'"
  | .unbalancedParen => "unbalanced ')'"
  | .wordTooLong => "operator token too long"

def ObjectFault.message : ObjectFault → String
  | .arrayEnd => "Unexpected array end token"
  | .dictEnd => "Unexpected dictionary end token"
  | .unterminatedDict => "Unterminated dictionary (missing '>>')"
  | .noObjectNumber => "Expected object number"
  | .noGeneration => "Expected generation number"
  | .noObjectKeyword => "Expected 'obj' keyword"
  | .noPackedHeader => "object stream without /N or /First"
  | .imageSize width height =>
    "image with invalid size " ++ toString width ++ "x" ++ toString height

def DecodeFault.message : DecodeFault → String
  | .unsupportedFilter => "unsupported filter"
  | .zlib reason => reason
  | .unknownPredictor predictor => "unknown predictor " ++ toString predictor
  | .invalidByte byte => "invalid byte 0x" ++ hexByte byte
  | .groupOutOfRange => "group out of range"
  | .invalidCode code => "invalid code " ++ toString code
  | .notJpeg => "not a JPEG image"
  | .pixelLimit width height =>
    "image of " ++ toString width ++ "x" ++ toString height ++ " exceeds the pixel limit"
  | .widthOutOfRange => "width out of range"
  | .heightOutOfRange => "height out of range"
  | .missingSamples image found expected =>
    "image " ++ toString image ++ " has " ++ toString found ++ " of " ++ toString expected ++
      " sample bytes"

def OperandFault.message : OperandFault → String
  | .wrongOperand index expected => "operand " ++ toString index ++ " is no " ++ expected
  | .notFound what name => what ++ " " ++ name ++ " not found"
  | .outOfRange value => "value " ++ toString value ++ " out of range"

def Missing.message : Missing → String
  | .catalog => "document catalog"
  | .pageTree => "/Pages in catalog"
  | .page index count => "page " ++ toString index ++ " of " ++ toString count

def Panic.message : Panic → String
  | .capacityOverflow => "capacity overflow"
  | .emptyRows => "chunk size must be non-zero"
  | .missingComponent => "index out of bounds"

def Error.message : Error → String
  | .endOfInput => "Unexpected end of stream"
  | .byteRange first last => "Invalid byte range: " ++ toString first ++ ".." ++ toString last
  | .position pos length =>
    "Invalid position " ++ toString pos ++ " for stream of length " ++ toString length
  | .token pos fault => "Syntax error at byte " ++ toString pos ++ ": " ++ fault.message
  | .operation operator fault =>
    "Content stream error: '" ++ operator ++ "': " ++ fault.message
  | .decode filter fault => filter ++ " error: " ++ fault.message
  | .missing what => "Missing object: " ++ what.message
  | .object fault => fault.message
  | .panic p => p.message

end PdfScene
