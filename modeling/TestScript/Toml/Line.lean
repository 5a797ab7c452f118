import TestScript.Yaml.Cursor

/-!
# Lines of TOML

Blanks, comments and line ends. A line ends at a line feed, with or without a carriage return in
front of it.

A loop over a text has a `bound`: a list at least as long as what is left of the text. Each round
reads a character, so the bound lasts until the text ends.
-/

namespace TestScript.Toml

/-- Steps over spaces and tabs. -/
def skipBlanks (cs : List Char) : List Char :=
  cs.dropWhile Yaml.isBlank

/-- Characters that may stand in comments and strings. -/
def isPrintable (c : Char) : Bool :=
  c = '\t' || (0x20 ≤ c.toNat && c.toNat ≠ 0x7F)

/-- Reads the end of a line. -/
def break? : List Char → Option (List Char)
  | '\n' :: cs | '\r' :: '\n' :: cs => some cs
  | _ => none

/-- Reads blanks, a comment and the end of the line or of the text. -/
def lineEnd? (cs : List Char) : Option (List Char) :=
  let cs := match skipBlanks cs with
    | '#' :: more => more.dropWhile isPrintable
    | more => more
  if cs.isEmpty then some [] else break? cs

/-- Steps over blanks, comments and line ends. -/
def skipLines : (bound : List Char) → List Char → List Char
  | [], cs => cs
  | _ :: bound, cs =>
    match lineEnd? cs with
    | some (c :: more) => skipLines bound (c :: more)
    | some [] => []
    | none => skipBlanks cs

end TestScript.Toml
