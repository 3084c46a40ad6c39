import PdfScene.Bytes
import PdfScene.Color.Basic
import PdfScene.Color.Pattern
import PdfScene.Color.Read
import PdfScene.Color.Space
import PdfScene.Content.HeldForm
import PdfScene.Content.Interpret
import PdfScene.Content.Machine
import PdfScene.Content.Operands
import PdfScene.Content.Operation
import PdfScene.Content.Operator
import PdfScene.Content.PathOperator
import PdfScene.Content.Setting
import PdfScene.Content.Show
import PdfScene.Document.Annotation
import PdfScene.Document.Basic
import PdfScene.Document.Boundary
import PdfScene.Document.Page
import PdfScene.Document.PageTree
import PdfScene.Document.Role
import PdfScene.Error
import PdfScene.Filter.Ascii85
import PdfScene.Filter.AsciiHex
import PdfScene.Filter.Chain
import PdfScene.Filter.Flate
import PdfScene.Filter.Jpeg
import PdfScene.Filter.Lzw
import PdfScene.Filter.Predictor
import PdfScene.Filter.RunLength
import PdfScene.Font.Basic
import PdfScene.Font.CMap
import PdfScene.Font.Read
import PdfScene.Geometry.Affine
import PdfScene.Geometry.Frame
import PdfScene.Geometry.Path
import PdfScene.Geometry.Rect
import PdfScene.Graphics.Parameters
import PdfScene.Graphics.State
import PdfScene.Graphics.Style
import PdfScene.Image.Basic
import PdfScene.Image.Pixels
import PdfScene.Inspect.Inflate
import PdfScene.Inspect.Program
import PdfScene.Inspect.Report
import PdfScene.Inspect.Request
import PdfScene.Lexical.Byte
import PdfScene.Lexical.Cursor
import PdfScene.Lexical.Name
import PdfScene.Lexical.Numeral
import PdfScene.Lexical.Quoted
import PdfScene.Lexical.Raw
import PdfScene.Lexical.Token
import PdfScene.Lexical.Tokens
import PdfScene.Main
import PdfScene.Number.Decimal
import PdfScene.Number.Double
import PdfScene.Number.Literal
import PdfScene.Number.Scalar
import PdfScene.Object.Basic
import PdfScene.Object.Reader
import PdfScene.Proofs.Color.Arity
import PdfScene.Proofs.Content.Alike
import PdfScene.Proofs.Content.Confinement
import PdfScene.Proofs.Content.Containment
import PdfScene.Proofs.Content.Contiguity
import PdfScene.Proofs.Content.Failures
import PdfScene.Proofs.Content.Inlining
import PdfScene.Proofs.Content.Moves
import PdfScene.Proofs.Content.Nesting
import PdfScene.Proofs.Content.Operands
import PdfScene.Proofs.Content.Panics
import PdfScene.Proofs.Content.Pieces
import PdfScene.Proofs.Content.Reachable
import PdfScene.Proofs.Content.Recursion
import PdfScene.Proofs.Content.Rejection
import PdfScene.Proofs.Content.Rereading
import PdfScene.Proofs.Content.SavedStates
import PdfScene.Proofs.Content.Segments
import PdfScene.Proofs.Content.Spelling
import PdfScene.Proofs.Content.Step
import PdfScene.Proofs.Content.Tandem
import PdfScene.Proofs.Content.TextReading
import PdfScene.Proofs.Content.WellSized
import PdfScene.Proofs.Document.Appearance
import PdfScene.Proofs.Document.Circles
import PdfScene.Proofs.Document.Lifecycle
import PdfScene.Proofs.Document.Opening
import PdfScene.Proofs.Document.Origins
import PdfScene.Proofs.Document.PageOrder
import PdfScene.Proofs.Document.Pages
import PdfScene.Proofs.Document.Painting
import PdfScene.Proofs.Document.Release
import PdfScene.Proofs.Document.Segments
import PdfScene.Proofs.Document.Sheet
import PdfScene.Proofs.Document.Tours
import PdfScene.Proofs.Document.Visiting
import PdfScene.Proofs.Filter.Base85
import PdfScene.Proofs.Filter.Bits
import PdfScene.Proofs.Filter.Chunks
import PdfScene.Proofs.Filter.Indirection
import PdfScene.Proofs.Filter.LzwBounds
import PdfScene.Proofs.Filter.LzwEncoding
import PdfScene.Proofs.Filter.LzwSound
import PdfScene.Proofs.Filter.Pairing
import PdfScene.Proofs.Filter.Prediction
import PdfScene.Proofs.Font.Assignments
import PdfScene.Proofs.Font.Mapping
import PdfScene.Proofs.Font.Ranges
import PdfScene.Proofs.Font.Refusal
import PdfScene.Proofs.Font.Sections
import PdfScene.Proofs.Font.Widths
import PdfScene.Proofs.Geometry.Canvas
import PdfScene.Proofs.Geometry.Extent
import PdfScene.Proofs.Geometry.Points
import PdfScene.Proofs.Geometry.Replay
import PdfScene.Proofs.Geometry.Rotation
import PdfScene.Proofs.Image.Pixels
import PdfScene.Proofs.Image.Samples
import PdfScene.Proofs.Lexical.Closing
import PdfScene.Proofs.Lexical.Digits
import PdfScene.Proofs.Lexical.HexString
import PdfScene.Proofs.Lexical.InlineData
import PdfScene.Proofs.Lexical.LineFeed
import PdfScene.Proofs.Lexical.LiteralString
import PdfScene.Proofs.Lexical.Locality
import PdfScene.Proofs.Lexical.Name
import PdfScene.Proofs.Lexical.Progress
import PdfScene.Proofs.Lexical.Sequence
import PdfScene.Proofs.Lexical.StreamBody
import PdfScene.Proofs.Lexical.TokenList
import PdfScene.Proofs.Number.BigEndian
import PdfScene.Proofs.Number.Exact
import PdfScene.Proofs.Number.Whole
import PdfScene.Proofs.Object.Equality
import PdfScene.Proofs.Object.Keys
import PdfScene.Proofs.Object.Locality
import PdfScene.Proofs.Object.Measures
import PdfScene.Proofs.Object.Plain
import PdfScene.Proofs.Object.Reading
import PdfScene.Proofs.Object.Streams
import PdfScene.Proofs.Object.Writing
import PdfScene.Proofs.Resource.Agreement
import PdfScene.Proofs.Resource.Lookup
import PdfScene.Proofs.Resource.Panics
import PdfScene.Proofs.Resource.Readers
import PdfScene.Proofs.Resource.Remembering
import PdfScene.Proofs.Resource.Shadowing
import PdfScene.Proofs.Scene.Calls
import PdfScene.Proofs.Store.Caching
import PdfScene.Proofs.Store.Catalog
import PdfScene.Proofs.Store.Chains
import PdfScene.Proofs.Store.Contents
import PdfScene.Proofs.Store.Holdings
import PdfScene.Proofs.Store.Layout
import PdfScene.Proofs.Store.Numbering
import PdfScene.Proofs.Store.Packed
import PdfScene.Proofs.Store.Payload
import PdfScene.Proofs.Store.Places
import PdfScene.Proofs.Store.Reach
import PdfScene.Proofs.Store.Recovery
import PdfScene.Proofs.Store.Running
import PdfScene.Proofs.Store.Scanned
import PdfScene.Proofs.Store.Search
import PdfScene.Proofs.Store.Slot
import PdfScene.Proofs.Store.Trailers
import PdfScene.Proofs.Text.Utf8
import PdfScene.Proofs.Window.Checked
import PdfScene.Proofs.Window.Family
import PdfScene.Resource.Form
import PdfScene.Resource.Scope
import PdfScene.Scene.Device
import PdfScene.Scene.Recording
import PdfScene.Scene.Shape
import PdfScene.Scene.Text
import PdfScene.Store.Library
import PdfScene.Store.Memory
import PdfScene.Store.Scan
import PdfScene.Text.Utf16
import PdfScene.Text.Utf8
import PdfScene.Text.WinAnsi
import PdfScene.Window
