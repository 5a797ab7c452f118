import TestScript.Yaml.Token
import TestScript.Yaml.Cursor

/-!
# Anchors, aliases, tags and directives

What stands in front of a node or of a document and says something about it. Faults are
reported at the indicator, but those in the name of a directive at the name.
-/

namespace TestScript.Yaml.Property

/-! ### Anchors and aliases -/

/-- The characters of the name of an anchor. -/
def isAnchorChar (c : Char) : Bool :=
  !isGap c && !isFlow c && c ≠ '\ufeff'

/-- Reads the name of an anchor or alias. -/
def anchorName (c : Cursor) : Except Fault (String × Cursor) :=
  let (name, c') := (c.advance 1).span isAnchorChar
  if name.isEmpty then throw ⟨.anchorName, c.position⟩ else pure (String.ofList name, c')

/-! ### Tags -/

/-- The characters of a URI. -/
def isUriChar (c : Char) : Bool :=
  (isNameChar c && c ≠ '_') || "#;/?:@&=+$,_.!~*\'()[]%".toList.contains c

/-- The characters behind the handle of a tag. -/
def isTagChar (c : Char) : Bool :=
  isUriChar c && !isFlow c && c ≠ '!'

/-- The octet that a percent sign and two hexadecimal digits stand for. -/
def octet? : List Char → Option Nat
  | '%' :: a :: b :: _ =>
    if isHexDigit a && isHexDigit b then some (16 * hexValue a + hexValue b) else none
  | _ => none

/-- How many octets a character takes whose first one is given. -/
def octetCount? (lead : Nat) : Option Nat :=
  if lead < 0x80 then some 1
  else if 0xC0 ≤ lead && lead < 0xE0 then some 2
  else if 0xE0 ≤ lead && lead < 0xF0 then some 3
  else if 0xF0 ≤ lead && lead < 0xF8 then some 4
  else none

/-- Reads the trailing octets of an escaped character. -/
def trailingOctets : (count : Nat) → (code : Nat) → Cursor → Except Cause (Nat × Cursor)
  | 0, code, c => pure (code, c)
  | count + 1, code, c =>
    match octet? c.rest with
    | none => throw .tagOctet
    | some n =>
      if 0x80 ≤ n ∧ n < 0xC0 then trailingOctets count (256 * code + n) (c.advance 3)
      else throw .tagTrailingOctet

/-- Reads an escaped character of a tag. The octets, written one behind the other, must be the
number of a character. -/
def escaped (c : Cursor) : Except Cause Cursor :=
  match octet? c.rest with
  | none => throw .tagOctet
  | some lead =>
    match octetCount? lead with
    | none => throw .tagLeadingOctet
    | some count => do
      let (code, c) ← trailingOctets (count - 1) lead (c.advance 3)
      if code.isValidChar then pure c else throw .tagCodePoint

/-- Steps over the characters of a tag that satisfy `p`, escaped ones included. -/
def tagChars (p : Char → Bool) : (bound : List Char) → Cursor → Except Cause Cursor
  | [], c => pure c
  | _ :: bound, c =>
    if !p c.next then pure c
    else if c.next = '%' then do
      let c ← escaped c
      tagChars p bound c
    else tagChars p bound (c.advance 1)

/-- Reads a tag and gives its handle: `!`, a name and `!`, behind which something must follow, or
a single `!`. -/
def tagHandle (c : Cursor) : Except Cause (String × Cursor) :=
  if c.look 1 = '<' then do
    let c ← tagChars isUriChar c.rest (c.advance 2)
    if c.next = '>' then pure ("", c.advance 1) else throw .tagVerbatim
  else do
    let (name, c) := (c.advance 1).span isNameChar
    let named := c.next = '!'
    let c := if named then c.advance 1 else c
    let handle := if named then '!' :: name ++ ['!'] else ['!']
    let c' ← tagChars isTagChar c.rest c
    if named && c'.index == c.index then throw .tagUri
    pure (String.ofList handle, c')

/-- Reads a tag. -/
def tag (inFlow : Bool) (c : Cursor) : Except Fault (Token.Kind × Cursor) := do
  let (handle, c') ← (tagHandle c).mapError (⟨·, c.position⟩)
  if isGap c'.next || inFlow && isFlow c'.next then pure (.tag handle, c')
  else throw ⟨.tagEnd, c.position⟩

/-! ### Directives -/

/-- Reads a part of a version: one to nine digits. -/
def versionPart (c : Cursor) : Except Cause Cursor :=
  let (digits, c) := c.span Char.isDigit
  if digits.isEmpty then throw .versionNumber
  else if 9 < digits.length then throw .versionTooLong
  else pure c

/-- Reads a version: two numbers with a dot between them. -/
def version (c : Cursor) : Except Cause Cursor := do
  let c ← versionPart c
  if c.next ≠ '.' then throw .versionDot
  versionPart (c.advance 1)

/-- Reads the handle that is declared: `!`, or a name that may be empty between two of them. -/
def declaredHandle (c : Cursor) : Except Cause (String × Cursor) := do
  if c.next ≠ '!' then throw .handleStart
  let (name, c) := (c.advance 1).span isNameChar
  if c.next = '!' then pure (String.ofList ('!' :: name ++ ['!']), c.advance 1)
  else if name.isEmpty then pure ("!", c)
  else throw .handleEnd

/-- Steps over what a declared handle stands for: `!` or a tag character, and a URI behind it. -/
def expansion (c : Cursor) : Except Cause Cursor :=
  if c.next = '!' then tagChars isUriChar c.rest (c.advance 1)
  else if isTagChar c.next then tagChars isUriChar c.rest c
  else throw .expansionStart

/-- Reads the declaration of a handle. -/
def declaration (c : Cursor) : Except Cause (String × Cursor) := do
  let (handle, c) ← declaredHandle c
  let c ← expansion c.skipAllBlanks
  if isGap c.next then pure (handle, c) else throw .expansionEnd

/-- Reads what stands behind the name of a directive. Only `%YAML` and `%TAG` are known; any
other directive is passed over. -/
def directiveBody (name : String) (c : Cursor) : Except Cause (Token.Kind × Cursor) := do
  if name = "YAML" then
    let c ← version c.skipAllBlanks
    pure (.versionDirective, c)
  else if name = "TAG" then
    let (handle, c) ← declaration c.skipAllBlanks
    pure (.tagDirective handle, c)
  else
    pure (.otherDirective, c.skipLine)

/-- Reads a directive up to the next line. Faults in its name are reported at the name. -/
def directive (c : Cursor) : Except Fault (Token.Kind × Cursor) := do
  let start := c.position
  let c := c.advance 1
  let (name, c') := c.span isNameChar
  if name.isEmpty then throw ⟨.directiveName, c.position⟩
  if !isGap c'.next then throw ⟨.directiveNameEnd, c.position⟩
  let (kind, c) ← (directiveBody (String.ofList name) c').mapError (⟨·, start⟩)
  let (_, _, c) ← c.skipTrailing
  if isLineEnd c.next then pure (kind, c.newline) else throw ⟨.directiveRest, start⟩

end TestScript.Yaml.Property
