import PdfScene.Inspect.Program

/-!
# The inspector on the command line

Looks at the path, runs the inspector, and writes what it says.
-/

set_option autoImplicit false

namespace PdfScene.Inspect

def look (path : String) : IO Found := do
  try
    let bytes ← IO.FS.readBinFile path
    return .file bytes.toList
  catch e =>
    match e with
    | .noFileOrDirectory _ _ _ => return .nothing
    | .inappropriateType _ 21 _ => return .directory
    | .inappropriateType _ _ _ => return .nothing
    | e => return .unreadable (toString e)

end PdfScene.Inspect

/-- Inspects the file that the first argument names. -/
def main (args : List String) : IO UInt32 := do
  let found ←
    match args.head? with
    | some path => PdfScene.Inspect.look path
    | none => pure .nothing
  let outcome := PdfScene.Inspect.run "pdf-inspect" args fun _ => found
  (← IO.getStdout).putStr outcome.out
  (← IO.getStderr).putStr outcome.err
  return UInt32.ofNat outcome.status
