import BlockC.Diagnostic.Cause
import BlockC.Text.Blank
import BlockC.Text.Lines

/-! # Reports

A diagnostic as a reader sees it: its name and tip, the file, and the line of source with an arrow
below it.  Spaces and tabs in front of the line are left out, and the arrow moves with them.
-/
namespace BlockC
namespace Report

/-- Spaces and tabs. -/
def isIndent (c : Char) : Bool :=
  c == ' ' || c == '\t'

/-- A character behind `width - 1` others. -/
def flushRight (fill : Char) (width : Nat) (c : Char) : List Char :=
  List.replicate (width - 1) fill ++ [c]

/-- The name of the cause, and its tip in parentheses. -/
def title (c : Cause) : String :=
  match c.tip? with
  | none => "Error: " ++ c.name
  | some tip => "Error: " ++ c.name ++ " (" ++ tip ++ ")"

/-- The line of source without the blanks around it. -/
def excerpt (line : List Char) : List Char :=
  Text.trimEnd (line.dropWhile isIndent)

/-- How many characters the arrow takes, its head included. -/
def arrowWidth (line : List Char) (column : Nat) : Nat :=
  column - (line.takeWhile isIndent).length + 1

/-- The widest arrow that is drawn. -/
def widestArrow : Nat := 65535

/-- The text of a line number, counted from zero. -/
def lineNumber (line : Nat) : String :=
  Numeral.decimal (line + 1)

/-- The bar that stands behind a line number, on a line without one. -/
def bar (line : Nat) : String :=
  String.ofList (flushRight ' ' ((lineNumber line).length + 2) '|')

/-- The report on a diagnostic in a file with the given content, up to the line of source. -/
def opening (d : Diagnostic) (file content : String) : String :=
  title d.cause ++ "\n" ++
    "-> " ++ file ++ "\n" ++
    bar d.pos.line ++ "\n" ++
    lineNumber d.pos.line ++ " | " ++
      String.ofList (excerpt (Text.line content.toList d.pos.line)) ++ "\n"

/-- The line below the line of source, with the arrow; none if the arrow is too wide. -/
def pointer? (pos : Position) (content : String) : Option String :=
  let width := arrowWidth (Text.line content.toList pos.line) pos.column
  if width ≤ widestArrow then
    some (bar pos.line ++ " " ++ String.ofList (flushRight '-' width '^') ++ "\n")
  else none

/-- The report on a diagnostic in a file with the given content.  There is none if the line number
does not fit in 64 bits, or if the arrow is too wide. -/
def render? (d : Diagnostic) (file content : String) : Option String :=
  if d.pos.line + 1 < Numeral.limit then
    (pointer? d.pos content).map fun pointer => opening d file content ++ pointer
  else none

end Report
end BlockC
