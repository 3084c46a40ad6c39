import PdfScene.Content.Operator
import PdfScene.Object.Basic
import PdfScene.Lexical.Raw

/-!
# Operations

Content is operands followed by the operator that takes them. `Operation.readAll` turns bytes into
operations and never fails: a malformed token, an unknown operator and an operator with too few
operands are dropped, and an operator with too many takes the last ones. So whoever carries out the
operations sees only well-sized ones.

The reader is a machine that is fed one token at a time. Its state is the operands waiting for an
operator and the containers that are open; between two operations both are empty. The one thing it
cannot take as tokens is the data of an inline image, which it asks for when the image's dictionary
ends.
-/

set_option autoImplicit false

namespace PdfScene

/-- An operator with the operands it takes. -/
structure Operation where
  op : Operator
  args : List Obj

namespace Operation

/-- A container that is open: what its entries are collected in, and whether it is the dictionary
of an inline image, which ends in a word and not in a bracket. -/
inductive Frame where
  /-- An array with the items read so far, latest first. -/
  | array (items : List Obj)
  /-- A dictionary, with the key whose value comes next. -/
  | dict (image : Bool) (entries : Dict) (key : Option String)

/-- What has been read since the last operator. -/
structure Reader where
  /-- Operands, latest first. -/
  operands : List Obj
  /-- Open containers, innermost first. -/
  stack : List Frame

/-- What a token leads to. -/
inductive Fed where
  /-- Nothing yet. -/
  | more (r : Reader)
  /-- An operation, after which nothing is pending. -/
  | operation (o : Operation)
  /-- An inline image, whose data comes next. -/
  | image (entries : Dict)

namespace Reader

/-- Nothing is pending. -/
def empty : Reader := ⟨[], []⟩

/-- How deep containers may nest. -/
def nestingLimit : Nat := 64

/-- Hands a finished operand to the container around it, or to the operator to come. -/
def deliver (r : Reader) (o : Obj) : Reader :=
  match r.stack with
  | [] => { r with operands := o :: r.operands }
  | .array items :: outer => { r with stack := .array (o :: items) :: outer }
  | .dict image entries (some key) :: outer =>
    { r with stack := .dict image (entries.insert key o) none :: outer }
  | .dict image entries none :: outer => { r with stack := .dict image entries none :: outer }

/-- What is left where an operand was expected and none came: the key it belonged to is dropped. -/
def skip (r : Reader) : Reader :=
  match r.stack with
  | .dict image entries _ :: outer => { r with stack := .dict image entries none :: outer }
  | _ => r

/-- Reads a token as an operand or as the start of one. -/
def operand (r : Reader) (t : Token) : Reader :=
  match t with
  | .num x => r.deliver (.num x)
  | .bool b => r.deliver (.bool b)
  | .null => r.deliver .null
  | .str s => r.deliver (.str s)
  | .hexStr s => r.deliver (.hexStr s)
  | .name s => r.deliver (.name s)
  | .arrayStart =>
    if r.stack.length < nestingLimit then { r with stack := .array [] :: r.stack } else r.skip
  | .dictStart =>
    if r.stack.length < nestingLimit then { r with stack := .dict false [] none :: r.stack }
    else r.skip
  | _ => r.skip

/-- The operation of an operator over the operands read, if there are enough. -/
def complete (r : Reader) (op : Operator) : Fed :=
  match op.arity? with
  | none => .operation ⟨op, r.operands.reverse⟩
  | some n =>
    if r.operands.length < n then .more empty
    else .operation ⟨op, (r.operands.take n).reverse⟩

/-- Reads a word between operations. -/
def word (r : Reader) (w : String) : Fed :=
  match Operator.ofCommand? w with
  | none => .more empty
  | some .inlineImage => .more ⟨[], [.dict true [] none]⟩
  | some op => r.complete op

def ends (image : Bool) (t : Token) : Bool :=
  match t with
  | .dictEnd => !image
  | .word w => image && w = "ID"
  | _ => false

def feed (r : Reader) (t : Token) : Fed :=
  match r.stack with
  | [] =>
    match t with
    | .word w => r.word w
    | _ => .more (r.operand t)
  | .array items :: outer =>
    match t with
    | .arrayEnd => .more ({ r with stack := outer }.deliver (.array items.reverse))
    | .word _ => .more r
    | _ => .more (r.operand t)
  | .dict image entries key :: outer =>
    if ends image t then
      if image then .image entries
      else .more ({ r with stack := outer }.deliver (.dict entries))
    else
      match key, t with
      | none, .name key => .more { r with stack := .dict image entries (some key) :: outer }
      | none, _ => .more r
      | some _, _ => .more (r.operand t)

/-- What the end of the input completes: an inline image that has begun is delivered empty. -/
def finish (r : Reader) : List Operation :=
  match r.stack.getLast? with
  | some (.dict true _ _) => [⟨.inlineImage, [.stream [] [] none]⟩]
  | _ => []

end Reader

/-- The operations of `bs` read from the state `r`, after those in `done`. -/
def readFrom (done : Array Operation) (r : Reader) (bs : Bytes) : Array Operation :=
  match _h : Token.scan bs with
  | (.error _, rest) => readFrom done r rest
  | (.ok t, rest) =>
    if _ht : t matches .eof then done ++ r.finish
    else
      match r.feed t with
      | .more r => readFrom done r rest
      | .operation o => readFrom (done.push o) .empty rest
      | .image entries =>
        let image := InlineData.scan rest
        readFrom (done.push ⟨.inlineImage, [.stream entries image.1 none]⟩) .empty image.2
termination_by bs.length
decreasing_by
  · exact Token.scan_progress _h nofun
  · exact Token.scan_progress _h (by rintro ⟨⟩; exact _ht rfl)
  · exact Token.scan_progress _h (by rintro ⟨⟩; exact _ht rfl)
  · have := Token.scan_progress _h (by rintro ⟨⟩; exact _ht rfl)
    exact Nat.lt_of_le_of_lt (InlineData.scan_length_le rest) this

/-- The operations of decoded content. -/
def readAll (bs : Bytes) : List Operation := (readFrom #[] .empty bs).toList

end Operation

end PdfScene
