import TestScript.Payload
import TestScript.Number.Shortest

/-!
# JSON text of a payload

`compact` writes a payload without spaces, `pretty` over several lines with two spaces a level.
Both write members in their order and the same text for every number and string.
-/

namespace TestScript.Payload

open Number

/-- Numbers from 0.00001 up to sixteen digits before the point are written without an
exponent. -/
def floatLayout : FloatLayout := ⟨-5, 15⟩

/-- A hexadecimal digit in lower case. -/
def hexDigit (n : Nat) : Char :=
  Nat.digitChar n

/-- A character inside a JSON string. The quote, the backslash and the control characters are
escaped, all else stands for itself. -/
def escapeChar (c : Char) : List Char :=
  if c = '\x22' then ['\\', '\x22']
  else if c = '\\' then ['\\', '\\']
  else if c = '\x08' then ['\\', 'b']
  else if c = '\x0c' then ['\\', 'f']
  else if c = '\n' then ['\\', 'n']
  else if c = '\r' then ['\\', 'r']
  else if c = '\t' then ['\\', 't']
  else if c.toNat < 0x20 then
    ['\\', 'u', '0', '0', hexDigit (c.toNat / 16), hexDigit (c.toNat % 16)]
  else [c]

/-- A JSON string. -/
def quote (s : String) : String :=
  "\"" ++ String.ofList (s.toList.flatMap escapeChar) ++ "\""

/-- A value that holds no others. -/
def atom : Payload → String
  | .null => "null"
  | .bool true => "true"
  | .bool false => "false"
  | .int n => toString n
  | .float x => x.render floatLayout
  | .text s => quote s
  | .list _ => "[]"
  | .object _ => "\x7b\x7d"

mutual

/-- JSON text without spaces. -/
def compact : Payload → String
  | .list items => "[" ++ ",".intercalate (compactItems items) ++ "]"
  | .object members => "\x7b" ++ ",".intercalate (compactMembers members) ++ "\x7d"
  | value => atom value

/-- The texts of the items of a list. -/
def compactItems : List Payload → List String
  | [] => []
  | item :: items => compact item :: compactItems items

/-- The texts of the members of an object. -/
def compactMembers : List (String × Payload) → List String
  | [] => []
  | (key, value) :: members => (quote key ++ ":" ++ compact value) :: compactMembers members

end

/-- A bracketed block, one entry a line. -/
def block (opening closing : String) (level : Nat) (entries : List String) : String :=
  let indent (n : Nat) := "\n" ++ String.ofList (List.replicate (2 * n) ' ')
  opening ++ ",".intercalate (entries.map (indent (level + 1) ++ ·)) ++ indent level ++ closing

mutual

/-- JSON text over several lines, for a value `level` levels deep. -/
def prettyAt (level : Nat) : Payload → String
  | .list (item :: items) =>
    block "[" "]" level (prettyAt (level + 1) item :: prettyItems (level + 1) items)
  | .object ((key, value) :: members) =>
    block "\x7b" "\x7d" level
      ((quote key ++ ": " ++ prettyAt (level + 1) value) :: prettyMembers (level + 1) members)
  | value => atom value

/-- The texts of the items of a list. -/
def prettyItems (level : Nat) : List Payload → List String
  | [] => []
  | item :: items => prettyAt level item :: prettyItems level items

/-- The texts of the members of an object. -/
def prettyMembers (level : Nat) : List (String × Payload) → List String
  | [] => []
  | (key, value) :: members =>
    (quote key ++ ": " ++ prettyAt level value) :: prettyMembers level members

end

/-- JSON text over several lines, two spaces a level. -/
def pretty (value : Payload) : String :=
  prettyAt 0 value

end TestScript.Payload
