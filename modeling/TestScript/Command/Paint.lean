/-!
# Colours

Texts for a terminal. Paint is laid on with an escape sequence in front and taken off with one
behind.
-/

namespace TestScript.Command

/-- How a text stands out. -/
inductive Paint where
  | bold
  | boldRed
  | boldGreen
  | boldBlue
  | boldCyan
  deriving DecidableEq, Repr

namespace Paint

/-- The codes of a paint. -/
def codes : Paint → String
  | .bold => "1"
  | .boldRed => "1;31"
  | .boldGreen => "1;32"
  | .boldBlue => "1;34"
  | .boldCyan => "1;36"

/-- The sequence that lays a paint on. -/
def start (p : Paint) : String :=
  .join ["\x1b[", p.codes, "m"]

/-- Writes a sequence behind every one in a text that takes paint off. -/
def afterResets (start : List Char) : List Char → List Char
  | '\x1b' :: '[' :: '0' :: 'm' :: cs =>
    '\x1b' :: '[' :: '0' :: 'm' :: (start ++ afterResets start cs)
  | c :: cs => c :: afterResets start cs
  | [] => []

/-- A text with paint, if there are colours. Paint that the text itself takes off is laid on
again. -/
def apply (p : Paint) (colors : Bool) (text : String) : String :=
  if colors then
    .join [p.start, String.ofList (afterResets p.start.toList text.toList), "\x1b[0m"]
  else text

end Paint
end TestScript.Command
