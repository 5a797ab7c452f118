import TestScript.Yaml.Cursor

/-!
# Line folding

Between two words of a scalar that runs over several lines, blanks within a line are kept, one
end of a line becomes a space, and `n + 1` of them become `n` line feeds.
-/

namespace TestScript.Yaml

/-- What has been read since the last word of a scalar. -/
structure Folding where
  /-- The blanks on the line of the last word, in order. -/
  blanks : List Char := []
  /-- The line of the last word has ended. -/
  broken : Bool := false
  /-- How many lines have ended since. -/
  more : Nat := 0

namespace Folding

/-- A blank on the line of the last word. -/
def blank (f : Folding) (c : Char) : Folding :=
  { f with blanks := f.blanks ++ [c] }

/-- The end of the line of the last word. -/
def firstBreak (f : Folding) : Folding :=
  { f with blanks := [], broken := true }

/-- The end of a later line. -/
def laterBreak (f : Folding) : Folding :=
  { f with more := f.more + 1 }

/-- The text in front of the next word, if that word stands on a later line. -/
def acrossLines (f : Folding) : List Char :=
  if f.broken ∧ f.more = 0 then [' '] else List.replicate f.more '\n'

end Folding
end TestScript.Yaml
