import TestScript.Position
import TestScript.Text.Lines

/-!
# Excerpts of a text

An excerpt shows the line of a place between its neighbours, each behind its number, and a caret
with a message under the place. All rows have their bar in one column.
-/

namespace TestScript.Text

/-- A text with spaces in front, so that it is at least `width` characters long. -/
def padLeft (width : Nat) (s : String) : String :=
  String.ofList (List.replicate (width - s.length) ' ') ++ s

/-- A row: what stands in the gutter, the bar, and what stands behind it. -/
def row (width : Nat) (gutter content : String) : String :=
  padLeft width gutter ++ " |" ++ content

/-- The row of a line, if there is such a line. -/
def lineRow (width : Nat) (source : List String) (number : Nat) : List String :=
  match source[number]? with
  | some line => [row width (toString number) (" " ++ line)]
  | none => []

/-- The rows of an excerpt around a place whose line exists. -/
def excerptRows (message : String) (source : List String) (p : Position) : List String :=
  let width := (toString (p.line + 1)).length
  ["  --> " ++ toString p.line ++ ":" ++ toString p.column, row width "" ""] ++
    (if p.line = 0 then [] else lineRow width source (p.line - 1)) ++
    lineRow width source p.line ++
    [row width "" (" " ++ String.ofList (List.replicate p.column ' ') ++ "^ " ++ message)] ++
    lineRow width source (p.line + 1) ++
    [row width "" ""]

/-- An excerpt of a text around a place. If the text has no such line, the message says which
one was meant. -/
def excerpt (message : String) (source : String) (p : Position) : String :=
  let source := lines source
  if p.line < source.length then
    "\n".intercalate (excerptRows message source p)
  else
    message ++ " at line " ++ toString p.line

end TestScript.Text
