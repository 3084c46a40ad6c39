import PdfScene.Inspect.Inflate
import PdfScene.Inspect.Report

/-!
# The inspector as a program

What the inspector writes is a function of its name, its arguments and what is found under the path
that the first of them is. `Inspect.run` is that function; only looking at the path is left to do.
-/

set_option autoImplicit false

namespace PdfScene.Inspect

/-- What is found under a path. -/
inductive Found where
  | nothing
  /-- Something that cannot be read, and why. -/
  | unreadable (reason : String)
  | file (bytes : Bytes)

def Found.directory : Found := .unreadable "Is a directory (os error 21)"

/-- What the program writes, and how it ends. -/
structure Outcome where
  status : Nat
  out : String
  err : String

/-- Lines, each ended by a line feed. -/
def unlines (lines : List String) : String := String.join (lines.map fun line => line ++ "\n")

/-- An end without success. -/
def failed (lines : List String) : Outcome := ⟨1, "", unlines lines⟩

/-- An end by a panic, after some lines have been written. -/
def panicked (lines : List String) (p : Panic) : Outcome := ⟨101, unlines lines, unlines [p.message]⟩

def usage (program : String) : List String :=
  ["PDF Page Inspector", "Usage: " ++ program ++ " <pdf-file> [options]", "", "Options:",
    "  --pages            Show page sizes and rotation (default)",
    "  --shapes           Show shape statistics per page",
    "  --text             Show text blocks per page",
    "  --boxes            Show all five boundary boxes",
    "  --rotation <deg>   Viewer rotation added to each page (default 0)",
    "  --zoom <factor>    Zoom used for device sizes (default 1)", "",
    "Set RUST_LOG=debug to see dropped operators and degraded pages."]

/-- What the program does when it is called by a name with some arguments, where `found` is what is
found under a path. The path comes first, then the options, then the document. -/
def run (program : String) (args : List String) (found : String → Found) : Outcome :=
  match args with
  | [] => failed (usage program)
  | path :: options =>
    match found path with
    | .nothing => failed ["Error: File not found: " ++ path]
    | .unreadable reason =>
      match Request.ofArgs options with
      | .error flag => failed ["Error: " ++ flag ++ " requires a number"]
      | .ok _ => failed ["Error opening PDF: I/O error: " ++ reason]
    | .file bytes =>
      match Request.ofArgs options with
      | .error flag => failed ["Error: " ++ flag ++ " requires a number"]
      | .ok request =>
        match Document.ofBytes bytes .default Document.defaultCapacity Inflate.inflater with
        | .error (.panic p) => panicked [] p
        | .error e => failed ["Error opening PDF: " ++ e.message]
        | .ok doc =>
          match (report path request doc).run [] with
          | (.ok (), lines) => ⟨0, unlines lines, ""⟩
          | (.error p, lines) => panicked lines p

end PdfScene.Inspect
