import PdfScene.Number.Literal

/-!
# What the inspector is asked for

The first argument is the file. Among the others, flags say what to show of each page, and two flags
are followed by a number. Arguments that mean nothing are passed over.
-/

set_option autoImplicit false

namespace PdfScene.Inspect

/-- What to show of each page. -/
structure Request where
  pages : Bool
  shapes : Bool
  text : Bool
  boxes : Bool
  /-- The turn that the viewer asks for, in degrees. -/
  rotation : Float
  zoom : Float

/-- The number after the first occurrence of a flag; `default` if the flag does not occur. The error
names a flag without its number. -/
def numberAfter (flag : String) (default : Float) (args : List String) : Except String Float :=
  match args.dropWhile fun arg => arg != flag with
  | [] => .ok default
  | _ :: rest =>
    match rest.head?.bind Decimal.parse? with
    | some x => .ok x
    | none => .error flag

/-- The request that the arguments behind the file make. Without a flag that says what to show, page
sizes are shown. -/
def Request.ofArgs (args : List String) : Except String Request := do
  let shapes := args.contains "--shapes"
  let text := args.contains "--text"
  let boxes := args.contains "--boxes"
  let rotation ← numberAfter "--rotation" 0 args
  let zoom ← numberAfter "--zoom" 1 args
  pure
    { pages := args.contains "--pages" || !(shapes || text || boxes)
      shapes
      text
      boxes
      rotation
      zoom }

end PdfScene.Inspect
