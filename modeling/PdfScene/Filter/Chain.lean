import PdfScene.Filter.Ascii85
import PdfScene.Filter.AsciiHex
import PdfScene.Filter.Flate
import PdfScene.Filter.Lzw
import PdfScene.Filter.Predictor
import PdfScene.Filter.RunLength

/-!
# Filter chains

A stream names the filters that its data went through, and decoding undoes them in that order. An
image codec ends the chain: its data is an image and not bytes to go on with, so what has been
decoded so far is handed over together with the codec.
-/

set_option autoImplicit false

namespace PdfScene

/-- A filter whose data is an image. -/
inductive ImageCodec where
  | dct
  | jpx
  | jbig2
  | ccitt
  deriving DecidableEq, Repr

namespace ImageCodec

def name : ImageCodec → String
  | dct => "DCTDecode"
  | jpx => "JPXDecode"
  | jbig2 => "JBIG2Decode"
  | ccitt => "CCITTFaxDecode"

/-- The codec that a filter name, full or short, stands for. -/
def ofName? (name : String) : Option ImageCodec :=
  if name = "DCTDecode" ∨ name = "DCT" then some dct
  else if name = "JPXDecode" then some jpx
  else if name = "JBIG2Decode" then some jbig2
  else if name = "CCITTFaxDecode" ∨ name = "CCF" then some ccitt
  else none

end ImageCodec

/-- Decoded data, and the image codec that is left to undo. -/
structure Decoded where
  data : Bytes
  codec : Option ImageCodec
  deriving Inhabited

def applyFilter (inflate : Inflater) (filter : String) (parms : Option Dict) (data : Bytes) :
    Except Error Bytes :=
  let fault (name : String) (r : Except DecodeFault Bytes) : Except Error Bytes :=
    r.mapError (.decode name)
  if filter = "FlateDecode" ∨ filter = "Fl" then
    fault "FlateDecode" (Flate.decode inflate data) >>= Predictor.undo parms
  else if filter = "LZWDecode" ∨ filter = "LZW" then
    let early := ((parms.bind (·.get? "EarlyChange")).bind Obj.int?).getD 1 != 0
    fault "LZWDecode" (Lzw.decode early data) >>= Predictor.undo parms
  else if filter = "ASCIIHexDecode" ∨ filter = "AHx" then .ok (AsciiHex.decode data)
  else if filter = "ASCII85Decode" ∨ filter = "A85" then
    fault "ASCII85Decode" (Ascii85.decode data)
  else if filter = "RunLengthDecode" ∨ filter = "RL" then .ok (RunLength.decode data)
  else .error (.decode filter .unsupportedFilter)

namespace StreamObj

/-- The names of the filters, in the order in which they are undone. -/
def filters (s : StreamObj) : List String :=
  match s.dict.get? "Filter" with
  | some (.name name) => [name]
  | some (.array items) => items.filterMap Obj.name?
  | _ => []

/-- The parameters at each place of the list of filters. -/
def parms (s : StreamObj) : List (Option Dict) :=
  let count := s.filters.length
  match s.dict.get? "DecodeParms" with
  | some (.dict d) => (List.range count).map fun i => if i = 0 then some d else none
  | some (.array items) => (List.range count).map fun i => (items[i]?).bind Obj.dict?
  | _ => List.replicate count none

/-- Undoes filters one after the other, up to an image codec. -/
def decodeChain (inflate : Inflater) (data : Bytes) :
    List (String × Option Dict) → Except Error Decoded
  | [] => .ok ⟨data, none⟩
  | (filter, parms) :: rest =>
    match ImageCodec.ofName? filter with
    | some codec => .ok ⟨data, some codec⟩
    | none => applyFilter inflate filter parms data >>= fun data => decodeChain inflate data rest

def decode (inflate : Inflater) (s : StreamObj) : Except Error Decoded :=
  decodeChain inflate s.data (s.filters.zip s.parms)

end StreamObj

end PdfScene
