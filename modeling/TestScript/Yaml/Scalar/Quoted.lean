import TestScript.Yaml.Scalar.Folding

/-!
# Quoted scalars

Between single quotes a quote is written twice. Between double quotes a backslash starts an
escape; in front of the end of a line it joins the two lines. Lines are folded, but blanks next
to the quotes stay.
-/

namespace TestScript.Yaml.Quoted

/-- What the character behind a backslash stands for. -/
inductive Escape where
  | char (c : Char)
  | hex (digits : Nat)
  | unknown

/-- The escapes between double quotes. -/
def escapeOf (c : Char) : Escape :=
  if c = '0' then .char '\x00'
  else if c = 'a' then .char '\x07'
  else if c = 'b' then .char '\x08'
  else if c = 't' || c = '\t' then .char '\t'
  else if c = 'n' then .char '\n'
  else if c = 'v' then .char '\x0b'
  else if c = 'f' then .char '\x0c'
  else if c = 'r' then .char '\r'
  else if c = 'e' then .char '\x1b'
  else if c = ' ' || c = '\x22' || c = '/' || c = '\\' then .char c
  else if c = 'N' then .char '\u0085'
  else if c = '_' then .char '\u00a0'
  else if c = 'L' then .char '\u2028'
  else if c = 'P' then .char '\u2029'
  else if c = 'x' then .hex 2
  else if c = 'u' then .hex 4
  else if c = 'U' then .hex 8
  else .unknown

/-- The number that hexadecimal digits denote. -/
def ofHex (cs : List Char) : Nat :=
  cs.foldl (fun n c => 16 * n + hexValue c) 0

/-- The character with a code point, if there is one. -/
def charOfNat? (n : Nat) : Option Char :=
  if n.isValidChar then some (Char.ofNat n) else none

/-- Reads an escape; the place stands in front of its backslash. -/
def escape (c : Cursor) : Except Cause (Char × Cursor) :=
  match escapeOf (c.look 1) with
  | .unknown => throw .escapeUnknown
  | .char ch => pure (ch, c.advance 2)
  | .hex n =>
    let digits := (c.rest.drop 2).take n
    if digits.length = n ∧ digits.all isHexDigit then
      match charOfNat? (ofHex digits) with
      | some ch => pure (ch, c.advance (2 + n))
      | none => throw .escapeCodePoint
    else
      throw .escapeDigits

/-- Reads up to a gap or the closing quote; says whether an escaped end of a line came last.
The text comes with its last character first. -/
def word (quote : Char) :
    (bound : List Char) → Cursor → List Char → Except Cause (List Char × Bool × Cursor)
  | [], c, text => pure (text, false, c)
  | _ :: bound, c, text =>
    if isGap c.next then pure (text, false, c)
    else if c.next = quote then
      if quote = '\x27' && c.look 1 = quote then
        word quote bound (c.advance 2) (quote :: text)
      else
        pure (text, false, c)
    else if quote = '\x22' && c.next = '\\' then
      if isBreak (c.look 1) then pure (text, true, (c.advance 1).newline)
      else do
        let (ch, c) ← escape c
        word quote bound c (ch :: text)
    else
      word quote bound (c.advance 1) (c.next :: text)

/-- Reads the gap behind a word; `later` says that the line of the word has ended. A tab may not
stand left of the column `indent` on a later line. -/
def gap (indent : Int) :
    (bound : List Char) → Cursor → Bool → Folding → Except Fault (Cursor × Bool × Folding)
  | [], c, later, f => pure (c, later, f)
  | _ :: bound, c, later, f =>
    if isBlank c.next then
      if !later then gap indent bound (c.skipBlanks 1) later (f.blank c.next)
      else if c.next = '\t' && c.before indent then throw ⟨.quotedTab, c.position⟩
      else gap indent bound (c.skipBlanks 1) later f
    else if isBreak c.next then
      gap indent bound c.newline true (if later then f.laterBreak else f.firstBreak)
    else
      pure (c, later, f)

/-- Reads words and the gaps between them up to the closing quote. Faults of the scalar as a
whole are reported at `start`. The text comes with its last character first. -/
def words (start : Position) (quote : Char) (indent : Int) :
    (bound : List Char) → Cursor → List Char → Except Fault (List Char × Cursor)
  | [], _, _ => throw ⟨.quotedUnfinished, start⟩
  | _ :: bound, c, text =>
    if c.atDocumentMarker then throw ⟨.quotedDocumentIndicator, start⟩
    else if c.next = '\x00' then throw ⟨.quotedUnfinished, start⟩
    else if c.before indent then throw ⟨.quotedIndentation, start⟩
    else do
      let (text, joined, c) ←
        (word quote c.rest c text).mapError (⟨·, start⟩)
      if c.next = quote then pure (text, c)
      else
        let (c, later, f) ← gap indent c.rest c joined {}
        words start quote indent bound c
          ((if later then f.acrossLines else f.blanks).reverse ++ text)

/-- Whether a character may stand behind a quoted scalar that began on line `line`. -/
def mayFollow (inFlow : Bool) (line : Nat) (c : Cursor) : Bool :=
  isLineEnd c.next ||
    (if inFlow then c.next = ',' || c.next = '\x7d' || c.next = ']' || c.next = ':'
     else c.next = ':' && line == c.line)

/-- Reads a quoted scalar; the place stands in front of its opening quote. -/
def read (inFlow : Bool) (indent : Int) (c : Cursor) : Except Fault (String × Cursor) := do
  let start := c.position
  let (text, c) ← words start c.next indent c.rest (c.advance 1) []
  let (_, _, c) ← (c.advance 1).skipTrailing
  if mayFollow inFlow start.line c then pure (String.ofList text.reverse, c)
  else throw ⟨.quotedTrailing, c.position⟩

end TestScript.Yaml.Quoted
