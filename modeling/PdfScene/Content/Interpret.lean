import PdfScene.Content.Setting
import PdfScene.Content.Show
import PdfScene.Resource.Scope

/-!
# Interpreting content

Content is carried out operation by operation. Problems of an operation are its own: it is dropped
and the next one is carried out as if it had not been there. What stops content as a whole is an
image that cannot be painted, and nothing else. A panic stops more than content: it ends the program.

A form is content within content. It is refused when it is one of the forms being interpreted
already, and when forms are nested too deep; a form that cannot be interpreted paints nothing. How
much room is left for nested forms is the number on which `Content.invoke` recurs.
-/

set_option autoImplicit false

namespace PdfScene

/-- How content is interpreted. -/
structure Options where
  /-- How deep forms may be nested. -/
  formDepth : Nat
  /-- Whether shown strings become shapes. -/
  recordText : Bool

/-- Twelve forms deep, with text. -/
def Options.default : Options := ⟨12, true⟩

/-- What content is interpreted in. -/
structure Context where
  lib : Library
  mode : Mode
  recordText : Bool
  scopes : Scopes
  /-- What comes of a form that the content uses. -/
  invoke : Form → Run Scene

namespace Context

variable (c : Context)

/-- The colour space of a name: a device space, one of the resources, or a calibrated space. -/
def colorSpace? (name : String) : Run (Except OperandFault ColorSpace) := do
  match ColorSpace.ofDeviceName? name with
  | some space => pure (.ok space)
  | none =>
    match (← c.scopes.colorSpace? c.lib name).or (ColorSpace.ofCalibratedName? name) with
    | some space => pure (.ok space)
    | none => pure (.error (.notFound "colour space" name))

/-- The pattern that the last operand names, with the colour that the numbers before it make. -/
def pattern (o : Operation) (color : List Float → Except Panic (Option Color)) :
    Run (Except OperandFault Paint) := do
  match o.args.getLast?.bind Obj.name? with
  | none => pure (.error (.wrongOperand (o.args.length - 1) "pattern name"))
  | some name =>
    match ← c.scopes.pattern? c.lib name with
    | none => pure (.error (.notFound "pattern" name))
    | some pattern => do
      let color ← Run.of (color (o.args.filterMap Obj.num?))
      pure (.ok (.pattern pattern color))

/-- The paint that the operands make in a colour space. -/
def paint (o : Operation) (space : ColorSpace) : Run (Except OperandFault Paint) :=
  match space with
  | .pattern => c.pattern o fun _ => .ok none
  | .stencil underlying =>
    c.pattern o fun xs => some <$> ColorSpace.orPanic (underlying.toColor? xs)
  | space => do
    let color ← Run.of (ColorSpace.orPanic (space.toColor? (o.args.filterMap Obj.num?)))
    pure (.ok (.solid color))

end Context

/-- The full key of an entry of an inline image. -/
def InlineData.fullKey (key : String) : String :=
  match key with
  | "BPC" => "BitsPerComponent"
  | "CS" => "ColorSpace"
  | "D" => "Decode"
  | "DP" => "DecodeParms"
  | "F" => "Filter"
  | "H" => "Height"
  | "IM" => "ImageMask"
  | "I" => "Interpolate"
  | "L" => "Length"
  | "W" => "Width"
  | key => key

/-- The stream of an inline image with full keys. Of two spellings of one key the one that comes up
later counts. -/
def InlineData.expand (order : Dict.Order) (s : StreamObj) : StreamObj :=
  ⟨(order.entries s.dict).foldl (fun d (key, value) => d.insert (fullKey key) value) [], s.data, none⟩

namespace Machine

variable (c : Context)

/-- Carries on with a result, unless there is a reason against it. -/
def orReject {α : Type} (m : Machine) (r : Except OperandFault α) (f : α → Run Outcome) :
    Run Outcome :=
  match r with
  | .ok a => f a
  | .error fault => pure (.rejected fault m)

/-- Paints an image. One whose data or pixels cannot be decoded stops the content. -/
def paintImage (m : Machine) (image : Image) (inContent : Bool) : Run Outcome := do
  match ← image.data c.lib with
  | .error e => pure (.failed e)
  | .ok data =>
    match ← Run.of (Panic.apart (image.pixels? data c.lib.jpeg)) with
    | .error e => pure (.failed e)
    | .ok pixels => pure (.done (m.paint (.image image pixels inContent)))

/-- Paints the image that stands in the content. -/
def paintInline (m : Machine) (s : StreamObj) : Run Outcome := do
  let named (name : String) : Run (Option ColorSpace) := c.scopes.colorSpace? c.lib name
  match ← Image.read c.lib (InlineData.expand c.lib.order s) named with
  | .error e => pure (.failed e)
  | .ok image => m.paintImage c image true

/-- Paints the image or form of a name. -/
def paintObject (m : Machine) (name : String) : Run Outcome := do
  match ← c.scopes.xobject? c.lib name with
  | none => pure (.done m)
  | some (.image image) => if c.mode = .shapes then m.paintImage c image false else pure (.done m)
  | some (.form form) => pure (.done (m.splice (← c.invoke (form.usedIn c.scopes m.state))))

def paintShading (m : Machine) (name : String) : Run Outcome := do
  match ← c.scopes.shading? c.lib name with
  | none => pure (.done m)
  | some shading => pure (.done (m.paint (.shading shading)))

def setParameters (m : Machine) (name : String) : Run Outcome := do
  match ← c.scopes.parameters? c.lib name with
  | none => pure (.done m)
  | some p => pure (.done { m with state := p.apply m.state })

/-- Sets the font of a name. The name is kept even if there is no such font. -/
def setFont (m : Machine) (name : String) (size : Float) : Run Outcome := do
  let font ← c.scopes.font? c.lib name
  let text := { m.state.text with font, fontName := some name, size }
  pure (.done { m with state := { m.state with text } })

/-- Sets the colour space of a name and its initial colour. -/
def setSpace (m : Machine) (name : String)
    (set : GraphicsState → ColorSpace → Paint → GraphicsState) : Run Outcome := do
  m.orReject (← c.colorSpace? name) fun space => do
    let color ← Run.of (ColorSpace.orPanic space.initialColor?)
    pure (.done { m with state := set m.state space (.solid color) })

/-- Sets a colour of the colour space in effect. -/
def setColor (m : Machine) (o : Operation) (space : ColorSpace)
    (set : GraphicsState → ColorSpace → Paint → GraphicsState) : Run Outcome := do
  m.orReject (← c.paint o space) fun paint =>
    pure (.done { m with state := set m.state space paint })

/-- Carries out an operator that needs resources or paints what is not a path. -/
def performNamed (m : Machine) (o : Operation) : Run Outcome :=
  match o.op with
  | .setState => m.orReject (o.name 0) (m.setParameters c)
  | .setFont =>
    m.orReject (do pure (← o.name 0, ← o.num 1)) fun (name, size) => m.setFont c name size
  | .setStrokeSpace => m.orReject (o.name 0) fun name => m.setSpace c name .withStroke
  | .setFillSpace => m.orReject (o.name 0) fun name => m.setSpace c name .withFill
  | .setStrokeColor | .setStrokeColorN => m.setColor c o m.state.strokeSpace .withStroke
  | .setFillColor | .setFillColorN => m.setColor c o m.state.fillSpace .withFill
  | .paintXObject => m.orReject (o.name 0) (m.paintObject c)
  | .shadingFill =>
    if c.mode = .text then pure (.done m) else m.orReject (o.name 0) (m.paintShading c)
  | .inlineImage =>
    if c.mode = .text then pure (.done m)
    else m.orReject (o.operand 0 "image" Obj.stream?) (m.paintInline c)
  | _ => pure (.done m)

/-- Carries out an operation that builds, confines or ends a path; none if it does not. -/
def performPath? (m : Machine) (mode : Mode) (o : Operation) : Option Outcome :=
  match o.segment? m.path, o.op.pathUse?, o.op.clipRule? with
  | some r, _, _ => some (if mode = .text then .done m else m.withPath r)
  | none, some use, _ => some (.done (if mode = .text then m.forgetClip else m.endPath use))
  | none, none, some rule => some (.done { m with pendingClip := some rule })
  | none, none, none => none

def perform (m : Machine) (o : Operation) : Run Outcome :=
  match o.op with
  | .save => pure (.done m.save)
  | .restore => pure (.done m.restore)
  | .beginText => pure (.done (m.beginText c.mode))
  | .endText => pure (.done m.endText)
  | .setDash =>
    match o.dashes m.state with
    | (none, state) => pure (.done { m with state })
    | (some fault, state) => pure (.rejected fault { m with state })
  | _ =>
    match o.setting? m.state, m.performPath? c.mode o, o.shown? c.mode c.recordText m with
    | some r, _, _ => pure (m.withState r)
    | none, some outcome, _ => pure outcome
    | none, none, some r => m.orReject r fun m => pure (.done m)
    | none, none, none => m.performNamed c o

/-- Carries out operations, up to one that stops the content. -/
def performAll (m : Machine) : List Operation → Run (Except Error Machine)
  | [] => pure (.ok m)
  | o :: rest => do
    match ← m.perform c o with
    | .done m => performAll m rest
    | .rejected _ m => performAll m rest
    | .failed e => pure (.error e)

end Machine

namespace Content

/-- What comes of content that starts in a state. A path that has not ended and a text object that
is still open come to nothing. -/
def scene (c : Context) (state : GraphicsState) (data : Bytes) : Run (Except Error Scene) := do
  match ← (Machine.start state).performAll c (Operation.readAll data) with
  | .ok m => pure (.ok m.scene)
  | .error e => pure (.error e)

variable (lib : Library) (mode : Mode) (options : Options)

/-- What comes of a form, given what comes of the forms that it uses while it and those in
`inProgress` are being interpreted. -/
def formScene (invoke : List ObjRef → Form → Run Scene) (inProgress : List ObjRef) (form : Form) :
    Run Scene := do
  match ← form.data lib with
  | .error _ => pure .empty
  | .ok data =>
    let c : Context :=
      { lib
        mode
        recordText := options.recordText
        scopes := form.scopes
        invoke := invoke (inProgress ++ form.ref.toList) }
    match ← scene c form.initialState data.data with
    | .ok s => pure s
    | .error _ => pure .empty

/-- Whether a form is being interpreted already. -/
def inUse (inProgress : List ObjRef) (form : Form) : Bool := form.ref.any inProgress.contains

/-- What comes of a form where it is used, with room for some forms within one another. -/
def invoke : Nat → List ObjRef → Form → Run Scene
  | 0, _, _ => pure .empty
  | room + 1, inProgress, form =>
    if inUse inProgress form then pure .empty
    else formScene lib mode options (invoke room) inProgress form

/-- What comes of content that no form contains. -/
def interpret (scopes : Scopes) (state : GraphicsState) (data : Bytes) :
    Run (Except Error Scene) :=
  scene
    { lib
      mode
      recordText := options.recordText
      scopes
      invoke := invoke lib mode options options.formDepth [] }
    state data

/-- What comes of a form that no content uses. It counts as one form deep. -/
def interpretForm (form : Form) : Run Scene :=
  formScene lib mode options (invoke lib mode options (options.formDepth - 1)) [] form

end Content

end PdfScene
