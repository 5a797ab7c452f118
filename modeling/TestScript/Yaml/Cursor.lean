import TestScript.Yaml.Fault

/-!
# Reading a YAML text

A `Cursor` stands between two characters of a text and knows its line and column. A line ends
at a line feed, a carriage return, or the two of them in that order. The end of the text reads
as NUL, and a NUL in the text ends it.

A reader of block scalars looks ahead, and the columns that it counts tell how far: a `Cursor`
knows how many of the characters in front of it have been `seen`.

A loop over a text has a `bound`: a list at least as long as what is left of the text. Each
round reads a character, so the bound lasts until the text ends.
-/

namespace TestScript.Yaml

/-! ### Character classes -/

/-- Space and tab. -/
def isBlank (c : Char) : Bool := c = ' ' || c = '\t'

/-- The characters that end a line. -/
def isBreak (c : Char) : Bool := c = '\n' || c = '\r'

/-- The end of a line or of the text. -/
def isLineEnd (c : Char) : Bool := isBreak c || c = '\x00'

/-- A blank, or the end of a line or of the text. -/
def isGap (c : Char) : Bool := isBlank c || isLineEnd c

/-- The indicators of flow collections. -/
def isFlow (c : Char) : Bool := c = ',' || c = '[' || c = ']' || c = '\x7b' || c = '\x7d'

/-- ASCII letters and digits, the low line and the hyphen. -/
def isNameChar (c : Char) : Bool := c.isAlphanum || c = '_' || c = '-'

/-- ASCII hexadecimal digits. -/
def isHexDigit (c : Char) : Bool :=
  c.isDigit || ('a' ≤ c && c ≤ 'f') || ('A' ≤ c && c ≤ 'F')

/-- The value of a hexadecimal digit. -/
def hexValue (c : Char) : Nat :=
  if c.isDigit then c.toNat - '0'.toNat
  else if 'a' ≤ c then c.toNat - 'a'.toNat + 10
  else c.toNat - 'A'.toNat + 10

/-! ### The cursor -/

/-- A place in a text that is being read. -/
structure Cursor where
  /-- What is left of the text. -/
  rest : List Char
  /-- How many characters have been read. -/
  index : Nat := 0
  position : Position := {}
  /-- Only blanks stand in front of this place on its line. -/
  fresh : Bool := true
  /-- How many characters of what is left have been seen already. -/
  seen : Nat := 0
  deriving Repr

namespace Cursor

/-- The start of a text. A NUL ends the text. -/
def ofText (text : String) : Cursor :=
  { rest := text.toList.takeWhile (· ≠ '\x00') }

/-- The character `n` places ahead. -/
def look (c : Cursor) (n : Nat) : Char :=
  c.rest.getD n '\x00'

/-- The next character. -/
def next (c : Cursor) : Char :=
  c.look 0

def line (c : Cursor) : Nat := c.position.line

def column (c : Cursor) : Nat := c.position.column

/-- Whether the place stands left of a column that may be negative. -/
def before (c : Cursor) (column : Int) : Bool :=
  (c.column : Int) < column

/-- Steps over `n` characters of a line. -/
def advance (c : Cursor) (n : Nat) : Cursor :=
  { rest := c.rest.drop n
    index := c.index + n
    position := ⟨c.line, c.column + n⟩
    fresh := false
    seen := c.seen - n }

theorem length_rest_advance (c : Cursor) (n : Nat) :
    (c.advance n).rest.length = c.rest.length - n := by
  simp [advance]

/-- Steps over `n` blanks. -/
def skipBlanks (c : Cursor) (n : Nat) : Cursor :=
  { c.advance n with fresh := c.fresh }

/-- Steps over the blanks that stand here. -/
def skipAllBlanks (c : Cursor) : Cursor :=
  c.skipBlanks (c.rest.takeWhile isBlank).length

/-- Steps over `n` characters of a line of verbatim text. Of these a character that has been seen
takes one column, and any other as many as it has octets. -/
def skipVerbatim (c : Cursor) (n : Nat) : Cursor :=
  let unseen := (c.rest.take n).drop c.seen
  { c.skipBlanks n with
    position := ⟨c.line, c.column + min n c.seen + unseen.foldr (·.utf8Size + ·) 0⟩ }

/-- Looks at the next `n` characters. -/
def lookAhead (c : Cursor) (n : Nat) : Cursor :=
  { c with seen := max c.seen n }

/-- Steps over one end of a line, if the place stands in front of one. -/
def newline (c : Cursor) : Cursor :=
  match c.rest with
  | '\r' :: '\n' :: cs => ⟨cs, c.index + 2, ⟨c.line + 1, 0⟩, true, c.seen - 2⟩
  | '\n' :: cs | '\r' :: cs => ⟨cs, c.index + 1, ⟨c.line + 1, 0⟩, true, c.seen - 1⟩
  | _ => c

/-- The end of a line takes a character at least. -/
theorem length_rest_newline_lt {c : Cursor} (h : isBreak c.next) :
    c.newline.rest.length < c.rest.length := by
  unfold newline
  split
  · next cs hc =>
    show cs.length < c.rest.length
    rw [hc, List.length_cons, List.length_cons]
    omega
  · next cs hc =>
    show cs.length < c.rest.length
    rw [hc, List.length_cons]
    omega
  · next cs _ hc =>
    show cs.length < c.rest.length
    rw [hc, List.length_cons]
    omega
  · next h₁ h₂ h₃ =>
    cases hr : c.rest with
    | nil => simp [next, look, hr, isBreak] at h
    | cons a as =>
      simp only [next, look, hr, isBreak, List.getD_cons_zero, Bool.or_eq_true,
        decide_eq_true_eq] at h
      rcases h with rfl | rfl
      · exact absurd hr (h₂ as)
      · exact absurd hr (h₃ as)

/-- Steps over the characters in front of the first one that fails `p`; gives them, too. -/
def span (c : Cursor) (p : Char → Bool) : List Char × Cursor :=
  let cs := c.rest.takeWhile p
  (cs, if cs.isEmpty then c else c.advance cs.length)

/-- Steps over what is left of the line. -/
def skipLine (c : Cursor) : Cursor :=
  (c.span (! isLineEnd ·)).2

/-- Steps over blanks and a comment; says whether there was a tab, and whether there was a
space. A comment needs a blank in front of it. -/
def skipTrailing (c : Cursor) : Except Fault (Bool × Bool × Cursor) :=
  let blanks := c.rest.takeWhile isBlank
  let c' := c.skipBlanks blanks.length
  if c'.next = '#' then
    if blanks.isEmpty then throw ⟨.commentWithoutBlank, c'.position⟩
    else pure (blanks.contains '\t', blanks.contains ' ', c'.skipLine)
  else
    pure (blanks.contains '\t', blanks.contains ' ', c')

/-- Whether `---` or `...` stands here, with a gap behind it. -/
def atMarker (c : Cursor) (sign : Char) : Bool :=
  c.column = 0 && c.next = sign && c.look 1 = sign && c.look 2 = sign && isGap (c.look 3)

/-- Whether a document marker stands here, at the start of a line. -/
def atDocumentMarker (c : Cursor) : Bool :=
  c.atMarker '-' || c.atMarker '.'

end Cursor
end TestScript.Yaml
