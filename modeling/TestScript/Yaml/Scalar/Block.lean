import TestScript.Yaml.Scalar.Folding

/-!
# Block scalars

A literal (`|`) or folded (`>`) scalar takes whole lines, indented at least as deep as its first
one or as its header says. The header may also say whether the line ends behind the last line
are dropped, kept, or cut down to one.

How far the text is looked ahead shows in the columns behind a line of content (see
`Cursor.skipVerbatim`): one character where the indentation is not known yet, four at the margin,
where a document marker may stand, and a window of sixteen at the start of every other line.
-/

namespace TestScript.Yaml.Block

/-- What becomes of the line ends behind the last line of content. -/
inductive Chomping where
  | strip
  | clip
  | keep
  deriving DecidableEq, Repr

/-- The chomping that a sign in the header asks for. -/
def chomping? (c : Char) : Option Chomping :=
  if c = '+' then some .keep else if c = '-' then some .strip else none

/-- Reads one digit of the header, which must not be 0. -/
def digit (start : Position) (c : Cursor) : Except Fault (Nat × Cursor) :=
  if c.next = '0' then throw ⟨.blockScalarZero, start⟩
  else if c.next.isDigit then pure (c.next.toNat - '0'.toNat, c.advance 1)
  else pure (0, c)

/-- Reads the chomping sign and the indentation digit, in either order; no digit counts as 0. -/
def header (start : Position) (c : Cursor) : Except Fault (Chomping × Nat × Cursor) := do
  match chomping? c.next with
  | some sign =>
    let (n, c) ← digit start (c.advance 1)
    pure (sign, n, c)
  | none =>
    let (n, c) ← digit start c
    match if n = 0 then none else chomping? c.next with
    | some sign => pure (sign, n, c.advance 1)
    | none => pure (.clip, n, c)

/-- How many spaces stand here. -/
def spaces (c : Cursor) : Nat :=
  (c.rest.takeWhile (· = ' ')).length

/-- How many characters have been seen behind the `n` spaces that begin a line. The window is
filled again when it runs out in front of the indentation; at the indentation two characters
are looked at. -/
def seenBehind (indent n : Nat) : Nat :=
  if n = indent ∧ 0 < n ∧ n % 16 = 0 then 2 else max 2 (16 - n % 16)

/-- Steps over the spaces at the start of a line, up to the indentation. -/
def skipIndentation (indent : Nat) (c : Cursor) : Cursor :=
  let n := min (spaces c) (indent - c.column)
  { c.skipBlanks n with seen := seenBehind indent n }

/-- Steps over empty lines and the indentation of the line behind them, counting the lines. -/
def skipEmptyLines (indent : Nat) : (bound : List Char) → Cursor → Nat → Cursor × Nat
  | [], c, breaks => (c, breaks)
  | _ :: bound, c, breaks =>
    let c := skipIndentation indent c
    if isBreak c.next then skipEmptyLines indent bound c.newline (breaks + 1) else (c, breaks)

/-- Steps over empty lines and the indentation of the first line of content; finds the largest
column that these lines reach by spaces alone. -/
def skipLeadingLines :
    (bound : List Char) → Cursor → (breaks widest : Nat) → Cursor × Nat × Nat
  | [], c, breaks, widest => (c, breaks, max widest c.column)
  | _ :: bound, c, breaks, widest =>
    let c := c.skipBlanks (spaces c)
    let widest := max widest c.column
    if isBreak c.next then skipLeadingLines bound c.newline (breaks + 1) widest
    else (c, breaks, widest)

/-- What stands between the lines of content read so far and the next one. -/
structure Seam where
  /-- A line of content has ended. -/
  ended : Bool := false
  /-- How many empty lines have been passed since. -/
  empty : Nat := 0
  /-- The last line of content begins with a blank. -/
  blankLine : Bool := false

/-- The text between two lines of content. Folding turns one line end into a space, but leaves
those next to a line that begins with a blank. -/
def Seam.text (s : Seam) (folded blankLine : Bool) : List Char :=
  if folded && s.ended && !s.blankLine && !blankLine then
    if s.empty = 0 then [' '] else List.replicate s.empty '\n'
  else
    List.replicate (s.empty + if s.ended then 1 else 0) '\n'

/-- Reads the lines of content; `text` is what has been read, its last character first. -/
def content (folded : Bool) (indent : Nat) :
    (bound : List Char) → Cursor → Seam → List Char → List Char × Seam × Cursor
  | [], c, s, text => (text, s, c)
  | _ :: bound, c, s, text =>
    if c.column ≠ indent ∨ c.next = '\x00' ∨ c.atMarker '.' then (text, s, c)
    else
      let blankLine := isBlank c.next
      let line := c.rest.takeWhile (! isLineEnd ·)
      let text := line.reverse ++ ((s.text folded blankLine).reverse ++ text)
      let c := c.skipVerbatim line.length
      if c.next = '\x00' then (text, { blankLine }, c)
      else
        let (c, empty) := skipEmptyLines indent c.rest c.newline 0
        content folded indent bound c { ended := true, empty, blankLine } text

/-- The text of a scalar whose lines never come: the text ends before them. `ended` says that
the line of the header ended, `empty` counts the empty lines behind it. -/
def emptyText (chomping : Chomping) (ended : Bool) (empty : Nat) : List Char :=
  match chomping with
  | .strip => []
  | .clip => if ended then ['\n'] else []
  | .keep => if ended then List.replicate (max 1 empty) '\n' else []

/-- The line ends behind the last line of content. A last line without one counts as ended if it
reaches the indentation. -/
def tail (chomping : Chomping) (indent : Nat) (s : Seam) (c : Cursor) : List Char :=
  let unended := c.next = '\x00' ∧ max indent 1 ≤ c.column
  let ends := (if s.ended then 1 else 0) + if unended then 1 else 0
  match chomping with
  | .strip => []
  | .clip => List.replicate ends '\n'
  | .keep => List.replicate (ends + s.empty) '\n'

/-- Reads a block scalar inside a block at column `outer`; the place stands in front of its
indicator. Gives the place that the scalar is reported at: its first line of content, or the
indicator if the text ends first. -/
def read (outer : Int) (c : Cursor) : Except Fault (String × Position × Cursor) := do
  let start := c.position
  let folded := c.next = '>'
  let (chomping, increment, c) ← header start (c.advance 1)
  let (_, _, c) ← c.skipTrailing
  if !isLineEnd c.next then throw ⟨.blockScalarHeader, start⟩
  let ended := isBreak c.next
  let c := c.newline
  if c.next = '\t' then throw ⟨.blockScalarTab, start⟩
  let (c, empty, indent) :=
    if increment = 0 then
      let (c, empty, widest) := skipLeadingLines c.rest c 0 0
      let indent := max widest (outer + 1).toNat
      (c.lookAhead (if indent = 0 then 4 else 1), empty, indent)
    else
      let indent := if 0 ≤ outer then outer.toNat + increment else increment
      let (c, empty) := skipEmptyLines indent c.rest c 0
      (c, empty, indent)
  if c.next = '\x00' then
    pure (String.ofList (emptyText chomping ended empty), start, c)
  else if c.column < indent && !c.before (outer + 1) then
    throw ⟨.blockScalarIndentation, c.position⟩
  else
    let (text, s, c') := content folded indent c.rest c { empty } []
    pure (String.ofList (text.reverse ++ tail chomping indent s c'), c.position, c')

end TestScript.Yaml.Block
