/-!
# Operators of content streams

The operators of PDF content (Annex A of the standard), the words they are written as, and how
many operands each takes. Only the colour operators take as many as the current colour space
needs, so their arity is not fixed.
-/

set_option autoImplicit false

namespace PdfScene

inductive Operator where
  -- graphics state
  | setLineWidth | setLineCap | setLineJoin | setMiterLimit | setDash | setIntent | setFlatness
  | setState | save | restore | transform
  -- path construction
  | moveTo | lineTo | curveTo
  /-- A curve whose first control point is the current point. -/
  | curveFromCurrent
  /-- A curve whose second control point is its end. -/
  | curveToEnd
  | closePath | rectangle
  -- path painting
  | stroke | closeStroke | fill | fillEvenOdd | fillStroke | fillStrokeEvenOdd | closeFillStroke
  | closeFillStrokeEvenOdd | endPath | clip | clipEvenOdd
  -- text
  | beginText | endText | setCharSpacing | setWordSpacing | setHorizontalScaling | setLeading
  | setFont | setRenderMode | setRise | moveText | moveTextSetLeading | setTextMatrix | nextLine
  | showText | showSpacedText | nextLineShow | nextLineSpaceShow
  -- glyph metrics
  | glyphWidth | glyphWidthAndBox
  -- colour
  | setStrokeSpace | setFillSpace | setStrokeColor | setStrokeColorN | setFillColor
  | setFillColorN | setStrokeGray | setFillGray | setStrokeRgb | setFillRgb | setStrokeCmyk
  | setFillCmyk
  -- shadings, images and forms
  | shadingFill | inlineImage | paintXObject
  -- marked content and compatibility
  | markPoint | markPointProps | beginMarked | beginMarkedProps | endMarked | beginCompat
  | endCompat
  deriving DecidableEq, Repr

namespace Operator

/-- The word an operator is written as. -/
def command : Operator → String
  | setLineWidth => "w"
  | setLineCap => "J"
  | setLineJoin => "j"
  | setMiterLimit => "M"
  | setDash => "d"
  | setIntent => "ri"
  | setFlatness => "i"
  | setState => "gs"
  | save => "q"
  | restore => "Q"
  | transform => "cm"
  | moveTo => "m"
  | lineTo => "l"
  | curveTo => "c"
  | curveFromCurrent => "v"
  | curveToEnd => "y"
  | closePath => "h"
  | rectangle => "re"
  | stroke => "S"
  | closeStroke => "s"
  | fill => "f"
  | fillEvenOdd => "f*"
  | fillStroke => "B"
  | fillStrokeEvenOdd => "B*"
  | closeFillStroke => "b"
  | closeFillStrokeEvenOdd => "b*"
  | endPath => "n"
  | clip => "W"
  | clipEvenOdd => "W*"
  | beginText => "BT"
  | endText => "ET"
  | setCharSpacing => "Tc"
  | setWordSpacing => "Tw"
  | setHorizontalScaling => "Tz"
  | setLeading => "TL"
  | setFont => "Tf"
  | setRenderMode => "Tr"
  | setRise => "Ts"
  | moveText => "Td"
  | moveTextSetLeading => "TD"
  | setTextMatrix => "Tm"
  | nextLine => "T*"
  | showText => "Tj"
  | showSpacedText => "TJ"
  | nextLineShow => "'"
  | nextLineSpaceShow => "\""
  | glyphWidth => "d0"
  | glyphWidthAndBox => "d1"
  | setStrokeSpace => "CS"
  | setFillSpace => "cs"
  | setStrokeColor => "SC"
  | setStrokeColorN => "SCN"
  | setFillColor => "sc"
  | setFillColorN => "scn"
  | setStrokeGray => "G"
  | setFillGray => "g"
  | setStrokeRgb => "RG"
  | setFillRgb => "rg"
  | setStrokeCmyk => "K"
  | setFillCmyk => "k"
  | shadingFill => "sh"
  | inlineImage => "BI"
  | paintXObject => "Do"
  | markPoint => "MP"
  | markPointProps => "DP"
  | beginMarked => "BMC"
  | beginMarkedProps => "BDC"
  | endMarked => "EMC"
  | beginCompat => "BX"
  | endCompat => "EX"

def all : List Operator :=
  [setLineWidth, setLineCap, setLineJoin, setMiterLimit, setDash, setIntent, setFlatness, setState,
    save, restore, transform, moveTo, lineTo, curveTo, curveFromCurrent, curveToEnd, closePath,
    rectangle, stroke, closeStroke, fill, fillEvenOdd, fillStroke, fillStrokeEvenOdd,
    closeFillStroke, closeFillStrokeEvenOdd, endPath, clip, clipEvenOdd, beginText, endText,
    setCharSpacing, setWordSpacing, setHorizontalScaling, setLeading, setFont, setRenderMode,
    setRise, moveText, moveTextSetLeading, setTextMatrix, nextLine, showText, showSpacedText,
    nextLineShow, nextLineSpaceShow, glyphWidth, glyphWidthAndBox, setStrokeSpace, setFillSpace,
    setStrokeColor, setStrokeColorN, setFillColor, setFillColorN, setStrokeGray, setFillGray,
    setStrokeRgb, setFillRgb, setStrokeCmyk, setFillCmyk, shadingFill, inlineImage, paintXObject,
    markPoint, markPointProps, beginMarked, beginMarkedProps, endMarked, beginCompat, endCompat]

/-- The operator that a word stands for. `F` is an old spelling of `f`. -/
def ofCommand? (word : String) : Option Operator :=
  if word = "F" then some fill else all.find? fun op => op.command = word

/-- How many operands an operator takes, if that does not depend on the colour space. -/
def arity? : Operator → Option Nat
  | setStrokeColor | setStrokeColorN | setFillColor | setFillColorN => none
  | save | restore | closePath | stroke | closeStroke | fill | fillEvenOdd | fillStroke
  | fillStrokeEvenOdd | closeFillStroke | closeFillStrokeEvenOdd | endPath | clip | clipEvenOdd
  | beginText | endText | nextLine | inlineImage | endMarked | beginCompat | endCompat => some 0
  | setLineWidth | setLineCap | setLineJoin | setMiterLimit | setIntent | setFlatness | setState
  | setCharSpacing | setWordSpacing | setHorizontalScaling | setLeading | setRenderMode | setRise
  | showText | showSpacedText | nextLineShow | setStrokeSpace | setFillSpace | setStrokeGray
  | setFillGray | shadingFill | paintXObject | markPoint | beginMarked => some 1
  | setDash | moveTo | lineTo | setFont | moveText | moveTextSetLeading | glyphWidth
  | markPointProps | beginMarkedProps => some 2
  | nextLineSpaceShow | setStrokeRgb | setFillRgb => some 3
  | curveFromCurrent | curveToEnd | rectangle | setStrokeCmyk | setFillCmyk => some 4
  | transform | curveTo | setTextMatrix | glyphWidthAndBox => some 6

end Operator

end PdfScene
