import TestScript.Yaml.Token
import TestScript.Yaml.Cursor
import TestScript.Yaml.Indentation

/-!
# The state of reading tokens

That a scalar is a key shows only at the colon behind it. A token that may turn out to begin a
key is a *candidate*; when the colon comes, the key token, and perhaps the start of a mapping,
are put in front of it. Tokens in front of the oldest candidate are settled: nothing read later
can change them, and a fault found later does not take them back.

`Lex` is a computation on this state that may end in a fault.
-/

namespace TestScript.Yaml

/-- A token that may turn out to begin a key. -/
structure Candidate where
  /-- How many tokens stand in front of it. -/
  number : Nat
  position : Position
  index : Nat
  /-- Only a key can stand at this place. -/
  required : Bool

/-- The state of reading tokens. -/
structure Lexer where
  cursor : Cursor
  tokens : Array Token := #[]
  /-- How many of the tokens are settled. -/
  settled : Nat := 0
  indentation : Indentation := {}
  /-- The candidate of the innermost flow collection, or of the block around them all. -/
  candidate : Option Candidate := none
  /-- The candidates around it, innermost first: one for each open flow collection. -/
  outer : List (Option Candidate) := []
  /-- A key may begin here. -/
  keyAllowed : Bool := true
  /-- Where a colon may follow right behind a quoted scalar or a flow collection. -/
  adjacentAt : Nat := 0
  /-- A flow mapping has been opened, by a brace or by a question mark. -/
  inMapping : Bool := false
  /-- The mapping being read is a single pair in a flow sequence. -/
  inPair : Bool := false

/-- A computation on the state of reading tokens. -/
abbrev Lex := StateT Lexer (Except Fault)

namespace Lex

/-- Ends with a fault at a place. -/
def failAt {α : Type} (cause : Cause) (position : Position) : Lex α :=
  throw ⟨cause, position⟩

/-- Ends with a fault at the place that is being read. -/
def fail {α : Type} (cause : Cause) : Lex α := do
  failAt cause (← get).cursor.position

/-- The place that is being read. -/
def cursor : Lex Cursor := do
  return (← get).cursor

/-- Goes on reading at another place. -/
def goTo (c : Cursor) : Lex Unit :=
  modify fun s => { s with cursor := c }

/-- Steps over `n` characters of a line. -/
def advance (n : Nat) : Lex Unit :=
  modify fun s => { s with cursor := s.cursor.advance n }

/-- Whether a flow collection is open. -/
def inFlow : Lex Bool := do
  return !(← get).outer.isEmpty

/-- Adds a token behind the others. -/
def push (position : Position) (kind : Token.Kind) : Lex Unit :=
  modify fun s => { s with tokens := s.tokens.push ⟨position, kind⟩ }

/-- Puts a token in front of the one with a number. -/
def insert (number : Nat) (position : Position) (kind : Token.Kind) : Lex Unit :=
  modify fun s =>
    { s with tokens := s.tokens.insertIdxIfInBounds number ⟨position, kind⟩ }

/-- Says whether a key may begin at the next token. -/
def allowKey (allowed : Bool) : Lex Unit :=
  modify fun s => { s with keyAllowed := allowed }

/-- Steps over blanks and a comment; says whether there was a tab, and whether there was a
space. -/
def skipTrailing : Lex (Bool × Bool) := do
  let (tab, space, c) ← (← cursor).skipTrailing
  goTo c
  return (tab, space)

/-! ### Indentation -/

/-- Closes the block collections right of a column, outside flow collections. -/
def unroll (column : Int) : Lex Unit := do
  unless ← inFlow do
    modify fun s =>
      let (closed, indentation) := s.indentation.unroll column
      { s with
        indentation
        tokens := s.tokens ++ Array.replicate closed ⟨s.cursor.position, .blockEnd⟩ }

/-- Opens a block collection at a column if that is deeper, outside flow collections; `add` adds
the token that opens it. -/
def roll (column : Nat) (add : Lex Unit) : Lex Unit := do
  unless ← inFlow do
    let (opened, indentation) := (← get).indentation.roll column
    modify fun s => { s with indentation }
    if opened then add

/-- Makes room for a value one column further, outside flow collections. -/
def nudge : Lex Unit := do
  unless ← inFlow do
    modify fun s => { s with indentation := s.indentation.nudge }

/-- Takes the provisional levels of indentation away. -/
def settleIndentation : Lex Unit :=
  modify fun s => { s with indentation := s.indentation.settle }

/-! ### Candidates -/

/-- Makes the next token a candidate if a key may begin there. -/
def saveCandidate : Lex Unit :=
  modify fun s =>
    if s.keyAllowed then
      let required := s.outer.isEmpty && s.indentation.column == s.cursor.column &&
        s.indentation.onCollection
      { s with candidate := some ⟨s.tokens.size, s.cursor.position, s.cursor.index, required⟩ }
    else s

/-- Gives the candidate up; one that had to be a key is a fault. -/
def dropCandidate : Lex Unit := do
  match (← get).candidate with
  | some k => if k.required then fail .keyExpected
  | none => pure ()
  modify fun s => { s with candidate := none }

/-- Outside flow collections a key ends on its line and is at most 1024 characters long. -/
def isStale (c : Cursor) (k : Candidate) : Bool :=
  k.position.line < c.line || k.index + 1024 < c.index

/-- Gives the candidates up that have grown too long; one that had to be a key is a fault. -/
def dropStale : Lex Unit := do
  let s ← get
  if s.outer.isEmpty then
    match s.candidate with
    | some k =>
      if isStale s.cursor k then
        if k.required then fail .keyWithoutColon
        set { s with candidate := none }
    | none => pure ()

/-- The tokens in front of every candidate are settled. -/
def settleTokens : Lex Unit :=
  modify fun s =>
    let numbers := (s.candidate :: s.outer).filterMap (·.map Candidate.number)
    { s with settled := numbers.foldl min s.tokens.size }

/-! ### Gaps between tokens -/

/-- Steps over blanks, comments and line ends up to the next token; says whether a line ended.
Inside a block collection a tab may not indent a line that has content. -/
def gap (indentation : Indentation) :
    (bound : List Char) → Cursor → Bool → Except Fault (Cursor × Bool)
  | [], c, ended => pure (c, ended)
  | _ :: bound, c, ended =>
    if c.next = '\t' && indentation.inBlock && c.fresh && c.before indentation.column then do
      let (_, _, c) ← c.skipTrailing
      if isLineEnd c.next then gap indentation bound c ended
      else throw ⟨.tabInIndentation, c.position⟩
    else if isBlank c.next then gap indentation bound (c.skipBlanks 1) ended
    else if isBreak c.next then gap indentation bound c.newline true
    else if c.next = '#' then gap indentation bound c.skipLine ended
    else pure (c, ended)

/-- Steps over the gap in front of the next token. Outside flow collections a key may begin on a
new line. -/
def skipGap : Lex Unit := do
  let s ← get
  let (c, ended) ← gap s.indentation s.cursor.rest s.cursor false
  goTo c
  if ended && s.outer.isEmpty then allowKey true

end Lex
end TestScript.Yaml
