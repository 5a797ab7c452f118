import TestScript.Toml.Text

/-!
# Keys of TOML

A key is one or more names with dots between them. A name is written bare or as a string on one
line.
-/

namespace TestScript.Toml

/-- Where this many names, or collections inside each other, are reached, a text is refused. -/
def depthLimit : Nat := 80

/-- Characters of a name that is written without quotes. -/
def isBareChar (c : Char) : Bool :=
  c.isAlphanum || c = '_' || c = '-'

/-- Reads a name. -/
def name? (cs : List Char) : Option (String × List Char) :=
  match string? cs with
  | some (text, rest) => some (String.ofList text, rest)
  | none =>
    let bare := cs.takeWhile isBareChar
    if bare.isEmpty then none else some (String.ofList bare, cs.drop bare.length)

/-- Reads names with dots between them; blanks may stand around each. -/
def names? : (bound : List Char) → List Char → Option (List String × List Char)
  | [], _ => none
  | _ :: bound, cs => do
    let (name, cs) ← name? (skipBlanks cs)
    match skipBlanks cs with
    | '.' :: more =>
      let (names, cs) ← names? bound more
      return (name :: names, cs)
    | cs => return ([name], cs)

/-- Reads a key and the blanks behind it. -/
def key? (cs : List Char) : Option (List String × List Char) := do
  let (names, cs) ← names? cs cs
  guard (names.length < depthLimit)
  return (names, cs)

end TestScript.Toml
