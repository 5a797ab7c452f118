import TestScript.Yaml.Token.Lexer
import TestScript.Yaml.Token.Property
import TestScript.Yaml.Scalar.Plain
import TestScript.Yaml.Scalar.Quoted
import TestScript.Yaml.Scalar.Block

/-!
# From a text to its tokens

`Lex.next` reads what stands at one place: the end of the text, a directive, a document marker,
an indicator or a scalar. `TokenStream.ofText` repeats it over the whole text. Each reading
takes at least one character, so a text of `n` characters is done after `n + 1` of them.
-/

namespace TestScript.Yaml

namespace Lex

/-! ### Documents -/

/-- Reads the end of the text, which counts as the start of a new line. -/
def streamEnd : Lex Unit := do
  modify fun s =>
    let p := s.cursor.position
    if p.column = 0 then s else { s with cursor.position := ⟨p.line + 1, 0⟩ }
  let s ← get
  if (s.candidate :: s.outer).any (fun k => k.any Candidate.required) then fail .keyExpected
  set { s with candidate := none, outer := s.outer.map fun _ => none }
  unroll (-1)
  push s.cursor.position .streamEnd

/-- Reads a directive. -/
def directive : Lex Unit := do
  unroll (-1)
  dropCandidate
  allowKey false
  let c ← cursor
  let (kind, c') ← Property.directive c
  goTo c'
  push c.position kind

/-- Reads a document marker. -/
def documentMarker (kind : Token.Kind) : Lex Unit := do
  unroll (-1)
  dropCandidate
  allowKey false
  push (← cursor).position kind
  advance 3

/-- Reads the marker at the end of a document, behind which only a comment may stand. -/
def documentEnd : Lex Unit := do
  documentMarker .documentEnd
  let _ ← skipTrailing
  unless isLineEnd (← cursor).next do fail .contentAfterDocumentEnd

/-! ### Flow collections -/

/-- Flow collections nest at most this deep. -/
def maxFlowDepth : Nat := 255

/-- Reads the bracket or brace that opens a flow collection. -/
def flowStart (kind : Token.Kind) : Lex Unit := do
  saveCandidate
  nudge
  let s ← get
  let start := s.cursor.position
  if maxFlowDepth ≤ s.outer.length then fail .flowTooDeep
  set { s with outer := s.candidate :: s.outer, candidate := none }
  allowKey true
  advance 1
  if kind = .flowMappingStart then modify fun s => { s with inMapping := true }
  let _ ← skipTrailing
  push start kind

/-- Ends a pair in a flow sequence, if there is one. -/
def endPair : Lex Unit := do
  let s ← get
  if s.inPair then
    set { s with inPair := false, inMapping := false }
    push s.cursor.position .flowMappingEnd

/-- Reads the bracket or brace that closes a flow collection. -/
def flowEnd (kind : Token.Kind) : Lex Unit := do
  dropCandidate
  modify fun s => match s.outer with
    | k :: ks => { s with candidate := k, outer := ks }
    | [] => s
  allowKey false
  endPair
  let start := (← cursor).position
  advance 1
  let _ ← skipTrailing
  if ← inFlow then modify fun s => { s with adjacentAt := s.cursor.index }
  push start kind

/-- Reads a comma between the members of a flow collection. -/
def flowEntry : Lex Unit := do
  dropCandidate
  allowKey true
  endPair
  let start := (← cursor).position
  advance 1
  let _ ← skipTrailing
  push start .flowEntry

/-! ### Block entries, keys and values -/

/-- Whether the last token is an anchor or a tag at the start of a line, and not settled. -/
def pendingProperty? (s : Lexer) : Option Position :=
  if s.settled < s.tokens.size then
    match s.tokens.back? with
    | some ⟨p, .anchor _⟩ | some ⟨p, .tag _⟩ => if p.column = 0 then some p else none
    | _ => none
  else none

/-- Reads the dash of an item of a block sequence. The token is placed behind the dash and its
blanks. -/
def blockEntry : Lex Unit := do
  let s ← get
  if ← inFlow then fail .dashInFlow
  unless s.keyAllowed do fail .entryNotAllowed
  if s.cursor.column = 0 ∧ -1 < s.indentation.column then
    if let some p := pendingProperty? s then failAt .badAnchorIndentation p
  let start := s.cursor.position
  advance 1
  roll start.column (push start .blockSequenceStart)
  let (tab, _) ← skipTrailing
  let c ← cursor
  if tab && c.next = '-' && isGap (c.look 1) then fail .tabBetweenDashes
  if isBreak c.next || isFlow c.next then nudge
  dropCandidate
  allowKey true
  push c.position .blockEntry

/-- Steps over the gap behind a question mark, tabs excluded; says whether there was one and
whether a line ended. -/
def keyGap : (bound : List Char) → Cursor → (any ended : Bool) → Bool × Bool × Cursor
  | [], c, any, ended => (any, ended, c)
  | _ :: bound, c, any, ended =>
    if c.next = ' ' then keyGap bound (c.skipBlanks 1) true ended
    else if isBreak c.next then keyGap bound c.newline true true
    else if c.next = '#' then keyGap bound c.skipLine any ended
    else (any, ended, c)

/-- Reads the question mark of a key. -/
def key : Lex Unit := do
  let s ← get
  let start := s.cursor.position
  let flow ← inFlow
  if flow then
    modify fun s => { s with inMapping := true }
  else
    unless s.keyAllowed do fail .keyNotAllowed
    roll start.column (push start .blockMappingStart)
  dropCandidate
  allowKey (!flow)
  let c := s.cursor.advance 1
  let (any, ended, c) := keyGap c.rest c false false
  goTo c
  if ended && !flow then allowKey true
  unless any do fail .blankExpectedAfterKey
  if c.next = '\t' then fail .tabAfterKey
  push start .key

/-- Reads the colon behind a candidate: puts the key in front of it. A pair in a flow sequence
and its key stand on one line. -/
def valueOfCandidate (k : Candidate) (colon : Position) (pair : Bool) : Lex Unit := do
  insert k.number k.position .key
  if pair then
    if k.position.line < colon.line then failAt .misplacedColon colon
    insert k.number (← cursor).position .flowMappingStart
  roll k.position.column (insert k.number colon .blockMappingStart)
  nudge
  modify fun s => { s with candidate := none }
  allowKey false

/-- Reads a colon with no candidate in front of it: the key is written with a question mark, or
missing. -/
def valueAlone (colon : Position) (pair : Bool) : Lex Unit := do
  if pair then push (← cursor).position .flowMappingStart
  let flow ← inFlow
  unless flow do
    unless (← get).keyAllowed do failAt .valueNotAllowed colon
    roll colon.column (push colon .blockMappingStart)
  nudge
  allowKey (!flow)

/-- Reads the colon in front of a value. -/
def value : Lex Unit := do
  let s ← get
  let colon := s.cursor.position
  let pair := !s.outer.isEmpty && !s.inMapping
  set { s with inPair := pair }
  advance 1
  if (← cursor).next = '\t' then
    let (_, space) ← skipTrailing
    if !space && isNameChar (← cursor).next then fail .tabAfterColon
  match s.candidate with
  | some k => valueOfCandidate k colon pair
  | none => valueAlone colon pair
  push colon .value

/-! ### Properties and scalars -/

/-- Reads an anchor or an alias. -/
def anchor (kind : String → Token.Kind) : Lex Unit := do
  saveCandidate
  allowKey false
  let c ← cursor
  let (name, c') ← Property.anchorName c
  goTo c'
  push c.position (kind name)

/-- Reads a tag. -/
def tag : Lex Unit := do
  saveCandidate
  allowKey false
  let c ← cursor
  let (kind, c') ← Property.tag (← inFlow) c
  goTo c'
  push c.position kind

/-- Reads a plain scalar. If it ended at the start of a line, a key may begin there. -/
def plainScalar : Lex Unit := do
  saveCandidate
  allowKey false
  settleIndentation
  let s ← get
  let (text, c) ← Plain.read (← inFlow) (s.indentation.column + 1) s.cursor
  goTo c
  if c.fresh then allowKey true
  push s.cursor.position (.scalar .plain text)

/-- Reads a quoted scalar, and the gap behind it. -/
def quotedScalar (style : Style) : Lex Unit := do
  saveCandidate
  allowKey false
  let s ← get
  let (text, c) ← Quoted.read (← inFlow) s.indentation.column s.cursor
  goTo c
  skipGap
  modify fun s => { s with adjacentAt := s.cursor.index }
  push s.cursor.position (.scalar style text)

/-- Reads a block scalar. -/
def blockScalar (style : Style) : Lex Unit := do
  saveCandidate
  allowKey true
  settleIndentation
  let s ← get
  let (text, position, c) ← Block.read s.indentation.column s.cursor
  goTo c
  push position (.scalar style text)

/-! ### One reading -/

/-- Reads what an indicator or the first character of a scalar announces. -/
def content : Lex Unit := do
  let s ← get
  let flow ← inFlow
  let c := s.cursor.next
  let behind := s.cursor.look 1
  if c = '[' then flowStart .flowSequenceStart
  else if c = '\x7b' then flowStart .flowMappingStart
  else if c = ']' then flowEnd .flowSequenceEnd
  else if c = '\x7d' then flowEnd .flowMappingEnd
  else if c = ',' then flowEntry
  else if c = '-' && isGap behind then blockEntry
  else if c = '?' && isGap behind then key
  else if c = ':' && (isGap behind ||
      flow && (isFlow behind || s.cursor.index == s.adjacentAt)) then value
  else if c = '*' then anchor .alias
  else if c = '&' then anchor .anchor
  else if c = '!' then tag
  else if c = '|' && !flow then blockScalar .literal
  else if c = '>' && !flow then blockScalar .folded
  else if c = '\x27' then quotedScalar .singleQuoted
  else if c = '\x22' then quotedScalar .doubleQuoted
  else if c = '%' || c = '@' || c = '\x60' then fail (.unexpectedCharacter c)
  else plainScalar

/-- Reads what stands at the next place that is not in a gap. -/
def next : Lex Unit := do
  skipGap
  dropStale
  unroll (← cursor).column
  let s ← get
  let c := s.cursor
  if c.next = '\x00' then streamEnd
  else if c.column = 0 && c.next = '%' then directive
  else if c.atMarker '-' then documentMarker .documentStart
  else if c.atMarker '.' then documentEnd
  else if c.before s.indentation.column then fail .badIndentation
  else content

/-- Reads on and settles what can be settled. -/
def step : Lex Unit := do
  next
  dropStale
  settleTokens

end Lex

/-- Where the text ends, if that has been read. -/
def Lexer.ended? (s : Lexer) : Option Position :=
  match s.tokens.back? with
  | some t => if t.kind = .streamEnd then some t.position else none
  | none => none

/-- Reads on until the end of the text or a fault; what is settled by then are the tokens. -/
def Lexer.run : (fuel : Nat) → Lexer → TokenStream
  | 0, s => ⟨s.tokens.toList, .ok s.cursor.position⟩
  | fuel + 1, s =>
    match Lex.step s with
    | .error fault => ⟨(s.tokens.take s.settled).toList, .error fault⟩
    | .ok (_, s) =>
      match s.ended? with
      | some p => ⟨s.tokens.toList, .ok p⟩
      | none => s.run fuel

/-- The tokens of a text. -/
def TokenStream.ofText (text : String) : TokenStream :=
  let cursor := Cursor.ofText text
  Lexer.run (cursor.rest.length + 1) { cursor }

end TestScript.Yaml
