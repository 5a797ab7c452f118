import TestScript.Toml.Date
import TestScript.Toml.Key
import TestScript.Toml.Number
import TestScript.Toml.Table

/-!
# Documents of TOML

A document is lines, and makes one table: a line adds a value to the table of the header above
it. Arrays may run over several lines, inline tables may not.
-/

namespace TestScript.Toml

/-- Characters of a value that is a number or a word. -/
def isWordChar (c : Char) : Bool :=
  c.isAlphanum || c = '_' || c = '-' || c = '+' || c = '.'

/-- The value that a word is. -/
def word? (cs : List Char) : Option Value :=
  if cs = ['t', 'r', 'u', 'e'] then some (.boolean true)
  else if cs = ['f', 'a', 'l', 's', 'e'] then some (.boolean false)
  else if isFloat cs then some .other
  else (integer? cs).map .integer

/-- Reads a value that is no collection. -/
def scalar? (cs : List Char) : Option (Value × List Char) :=
  match skipString? cs <|> skipDateTime? cs with
  | some rest => some (.other, rest)
  | none =>
    let word := cs.takeWhile isWordChar
    (word? word).map (·, cs.drop word.length)

mutual

/-- Reads a value inside `depth` collections. -/
def value? (depth : Nat) : (bound : List Char) → List Char → Option (Value × List Char)
  | [], _ => none
  | _ :: bound, cs =>
    match cs with
    | '[' :: more => do
      guard (depth + 1 < depthLimit)
      return (.other, ← items? (depth + 1) bound more)
    | '\x7b' :: more => do
      guard (depth + 1 < depthLimit)
      match skipBlanks more with
      | '\x7d' :: rest => return (.other, rest)
      | _ => return (.other, ← members? (depth + 1) bound more [])
    | _ => scalar? cs

/-- Steps over the items of an array, up to its closing bracket; a comma may stand behind the
last. -/
def items? (depth : Nat) : (bound : List Char) → List Char → Option (List Char)
  | [], _ => none
  | _ :: bound, cs =>
    match skipLines cs cs with
    | ']' :: more => some more
    | cs => do
      let (_, cs) ← value? depth bound cs
      match skipLines cs cs with
      | ',' :: more => items? depth bound more
      | ']' :: more => some more
      | _ => none

/-- Steps over the members of an inline table, up to its closing brace; `t` holds those in
front. -/
def members? (depth : Nat) :
    (bound : List Char) → List Char → (t : Table) → Option (List Char)
  | [], _, _ => none
  | _ :: bound, cs, t => do
    let (key, cs) ← key? cs
    let (v, cs) ← value? depth bound (skipBlanks (← sign? '=' cs))
    let t ← t.insert? v key
    match skipBlanks cs with
    | ',' :: more => members? depth bound more t
    | '\x7d' :: more => some more
    | _ => none

end

/-- Reads a line with a key and its value, for the table under `header`. -/
def keyLine? (header : List String) (cs : List Char) (t : Table) : Option (List Char × Table) := do
  let (key, cs) ← key? cs
  let cs := skipBlanks (← sign? '=' cs)
  let (v, cs) ← value? 0 cs cs
  let t ← t.within? (Table.insert? v key) header
  return (← lineEnd? cs, t)

/-- Reads the lines of a document; `header` is the header above them. -/
def lines? :
    (bound : List Char) → List Char → (header : List String) → Table → Option Table
  | [], _, _, t => some t
  | _ :: bound, cs, header, t =>
    match skipLines cs cs with
    | [] => some t
    | '[' :: '[' :: more => do
      let (key, cs) ← key? more
      let cs ← sign? ']' (← sign? ']' cs)
      lines? bound (← lineEnd? cs) key (← t.openRow? key)
    | '[' :: more => do
      let (key, cs) ← key? more
      let cs ← sign? ']' cs
      lines? bound (← lineEnd? cs) key (← t.openTable? key)
    | cs => do
      let (cs, t) ← keyLine? header cs t
      lines? bound cs header t

/-- The table that a text makes. A byte order mark at its start does not count. -/
def Table.ofText? (text : String) : Option Table :=
  let cs := match text.toList with
    | '\ufeff' :: cs => cs
    | cs => cs
  lines? cs cs [] []

end TestScript.Toml
