import TestScript.Yaml.Event
import TestScript.Yaml.Token.Scan

/-!
# From tokens to events

The productions of the YAML grammar, read from left to right with one token of lookahead. A
node that is missing is an empty plain scalar, marked at the token that stands in its place.

Each production takes a `fuel` that bounds how many of them are in use inside each other. Of
three such uses in a row one has read a token, so four units a token are more than enough.
-/

namespace TestScript.Yaml

/-- What the productions keep: the tokens left, the events told so far, and the anchors and the
declared tag handle of the document. -/
structure Telling where
  stream : TokenStream
  events : Array Event := #[]
  anchors : List String := []
  handle : Option String := none

/-- A computation on this state that may end in a fault. -/
abbrev Tell := StateT Telling (Except Fault)

namespace Tell

/-- Ends with a fault at a place. -/
def fail {α : Type} (cause : Cause) (position : Position) : Tell α :=
  throw ⟨cause, position⟩

/-- The next token. -/
def peek : Tell Token := do
  (← get).stream.peek

theorem run_peek (s : Telling) : peek.run s = s.stream.peek.map (·, s) := by
  rw [peek, StateT.run_bind]
  show (liftM s.stream.peek : Tell Token).run s = _
  cases s.stream.peek <;> rfl

/-- Passes the next token over. -/
def skip : Tell Unit :=
  modify fun s => { s with stream := s.stream.drop }

/-- Tells an event. -/
def tell (position : Position) (kind : Event.Kind) : Tell Unit :=
  modify fun s => { s with events := s.events.push ⟨position, kind⟩ }

/-- Tells a missing node. -/
def missing (position : Position) : Tell Unit :=
  tell position (.scalar .plain "")

/-! ### Properties of a node -/

/-- Whether a handle stands for itself: it is not of the form `!name!`. -/
def isLocalHandle (handle : String) : Bool :=
  handle.length < 3 || handle.toList.getLast? ≠ some '!'

/-- Reads a tag, if one stands here. Only `!` and `!!` can be used without a declaration. -/
def tag? (start : Position) : Tell Bool := do
  match (← peek).kind with
  | .tag handle =>
    skip
    unless isLocalHandle handle || (← get).handle = some handle do fail .tagHandle start
    return true
  | _ => return false

/-- Reads an anchor, if one stands here. -/
def anchor? : Tell Bool := do
  match (← peek).kind with
  | .anchor name =>
    skip
    modify fun s => { s with anchors := name :: s.anchors }
    return true
  | _ => return false

/-- Reads an anchor and a tag, in either order; says whether there was any. -/
def properties : Tell Bool := do
  let start := (← peek).position
  if ← anchor? then
    let _ ← tag? start
    return true
  else if ← tag? start then
    let _ ← anchor?
    return true
  else
    return false

/-! ### Nodes -/

/-- The tokens that end the key or the value of a block mapping. -/
def endsBlockPart : Token.Kind → Bool
  | .key | .value | .blockEnd => true
  | _ => false

/-- The tokens that end an item of a block sequence. -/
def endsBlockItem : Token.Kind → Bool
  | .blockEntry | .blockEnd => true
  | _ => false

/-- The tokens that end a value of a flow mapping. -/
def endsFlowValue : Token.Kind → Bool
  | .flowEntry | .flowMappingEnd => true
  | _ => false

/-- The tokens that end a value of a pair in a flow sequence. -/
def endsPairValue : Token.Kind → Bool
  | .flowEntry | .flowSequenceEnd => true
  | _ => false

mutual

/-- A node. Block collections are read only where `block` says so, and a sequence that is not
indented under its key only where `indentless` does. -/
def node (block indentless : Bool) : (fuel : Nat) → Tell Unit
  | 0 => pure ()
  | fuel + 1 => do
    let start ← peek
    match start.kind with
    | .alias name =>
      skip
      unless (← get).anchors.contains name do fail .unknownAnchor start.position
      tell start.position .alias
    | _ =>
      let marked ← properties
      let ⟨position, kind⟩ ← peek
      match kind with
      | .scalar style text =>
        skip
        tell position (.scalar style text)
      | .flowSequenceStart =>
        skip
        tell position .sequenceStart
        flowItems true fuel
      | .flowMappingStart =>
        skip
        tell position .mappingStart
        flowMembers true fuel
      | .blockEntry =>
        if indentless then
          tell position .sequenceStart
          indentlessItems fuel
        else if marked then missing position
        else fail .nodeExpected position
      | .blockSequenceStart =>
        if block then
          skip
          tell position .sequenceStart
          blockItems fuel
        else if marked then missing position
        else fail .nodeExpected position
      | .blockMappingStart =>
        if block then
          skip
          tell position .mappingStart
          blockMembers fuel
        else if marked then missing position
        else fail .nodeExpected position
      | _ =>
        if marked then missing position else fail .nodeExpected position

/-- A node, or nothing in front of a token that `ends` it. -/
def nodeUnless (ends : Token.Kind → Bool) (block indentless : Bool) : (fuel : Nat) → Tell Unit
  | 0 => pure ()
  | fuel + 1 => do
    let ⟨position, kind⟩ ← peek
    if ends kind then missing position else node block indentless fuel

/-- The members of a block mapping, up to its end. -/
def blockMembers : (fuel : Nat) → Tell Unit
  | 0 => pure ()
  | fuel + 1 => do
    let ⟨position, kind⟩ ← peek
    match kind with
    | .blockEnd =>
      skip
      tell position .mappingEnd
    | .key =>
      skip
      nodeUnless endsBlockPart true true fuel
      blockValue fuel
      blockMembers fuel
    | .value =>
      missing position
      blockValue fuel
      blockMembers fuel
    | _ => fail .blockKeyExpected position

/-- The value of a member of a block mapping. -/
def blockValue : (fuel : Nat) → Tell Unit
  | 0 => pure ()
  | fuel + 1 => do
    let ⟨position, kind⟩ ← peek
    if kind = .value then
      skip
      nodeUnless endsBlockPart true true fuel
    else
      missing position

/-- The items of a block sequence, up to its end. -/
def blockItems : (fuel : Nat) → Tell Unit
  | 0 => pure ()
  | fuel + 1 => do
    let ⟨position, kind⟩ ← peek
    match kind with
    | .blockEnd =>
      skip
      tell position .sequenceEnd
    | .blockEntry =>
      skip
      nodeUnless endsBlockItem true false fuel
      blockItems fuel
    | _ => fail .blockEntryExpected position

/-- The items of a sequence that is not indented under its key. It has no token for its end. -/
def indentlessItems : (fuel : Nat) → Tell Unit
  | 0 => pure ()
  | fuel + 1 => do
    let ⟨position, kind⟩ ← peek
    if kind = .blockEntry then
      skip
      nodeUnless (fun k => endsBlockItem k || endsBlockPart k) true false fuel
      indentlessItems fuel
    else
      tell position .sequenceEnd

/-- The members of a flow mapping, up to its end; in front of all but the first stands a
comma. -/
def flowMembers (first : Bool) : (fuel : Nat) → Tell Unit
  | 0 => pure ()
  | fuel + 1 => do
    let ⟨position, kind⟩ ← peek
    if kind = .flowMappingEnd then
      skip
      tell position .mappingEnd
    else
      unless first do
        if kind = .flowEntry then skip else fail .flowMappingSeparator position
      let ⟨position', kind'⟩ ← peek
      match kind' with
      | .flowMappingEnd =>
        skip
        tell position .mappingEnd
      | .key =>
        skip
        nodeUnless (fun k => endsFlowValue k || k = .value) false false fuel
        flowValue fuel
        flowMembers false fuel
      | .value =>
        missing position'
        flowValue fuel
        flowMembers false fuel
      | _ =>
        node false false fuel
        missing (← peek).position
        flowMembers false fuel

/-- The value of a member of a flow mapping. If nothing stands behind the colon, the value is
marked at the colon. -/
def flowValue : (fuel : Nat) → Tell Unit
  | 0 => pure ()
  | fuel + 1 => do
    let ⟨position, kind⟩ ← peek
    if kind = .value then
      skip
      if endsFlowValue (← peek).kind then missing position else node false false fuel
    else
      missing position

/-- The items of a flow sequence, up to its end; in front of all but the first stands a comma.
An item that begins with a key is a mapping of one pair. -/
def flowItems (first : Bool) : (fuel : Nat) → Tell Unit
  | 0 => pure ()
  | fuel + 1 => do
    let ⟨position, kind⟩ ← peek
    if kind = .flowSequenceEnd then
      skip
      tell position .sequenceEnd
    else
      unless first do
        if kind = .flowEntry then skip else fail .flowSequenceSeparator position
      let ⟨position', kind'⟩ ← peek
      match kind' with
      | .flowSequenceEnd =>
        skip
        tell position' .sequenceEnd
      | .key =>
        skip
        tell position' .mappingStart
        pairKey fuel
        pairValue fuel
        tell (← peek).position .mappingEnd
        flowItems false fuel
      | _ =>
        node false false fuel
        flowItems false fuel

/-- The key of a pair in a flow sequence. A token that stands in place of the key is passed
over. -/
def pairKey : (fuel : Nat) → Tell Unit
  | 0 => pure ()
  | fuel + 1 => do
    let ⟨position, kind⟩ ← peek
    if endsPairValue kind || kind = .value then
      skip
      missing position
    else
      node false false fuel

/-- The value of a pair in a flow sequence. -/
def pairValue : (fuel : Nat) → Tell Unit
  | 0 => pure ()
  | fuel + 1 => do
    let ⟨position, kind⟩ ← peek
    if kind = .value then
      skip
      nodeUnless endsPairValue false false fuel
    else
      missing position

end

/-! ### Documents -/

/-- The tokens that cannot begin the content of a document. -/
def endsDocument : Token.Kind → Bool
  | .versionDirective | .tagDirective _ | .otherDirective => true
  | .documentStart | .documentEnd | .streamEnd => true
  | _ => false

/-- Whether a token is a directive. -/
def isDirective : Token.Kind → Bool
  | .versionDirective | .tagDirective _ | .otherDirective => true
  | _ => false

/-- Says which tag handle is declared. -/
def declare (handle : Option String) : Tell Unit :=
  modify fun s => { s with handle }

/-- Reads directives; only one of them may give the version. A declared tag handle is forgotten
at the next directive. -/
def directives : (fuel : Nat) → (versioned : Bool) → Tell Unit
  | 0, _ => pure ()
  | fuel + 1, versioned => do
    let ⟨position, kind⟩ ← peek
    match kind with
    | .versionDirective =>
      if versioned then fail .secondVersion position
      skip
      declare none
      directives fuel true
    | .tagDirective handle =>
      skip
      declare (some handle)
      directives fuel versioned
    | .otherDirective =>
      skip
      declare none
      directives fuel versioned
    | _ => pure ()

/-- Passes over markers at the end of documents. -/
def documentEnds : (fuel : Nat) → Tell Unit
  | 0 => pure ()
  | fuel + 1 => do
    if (← peek).kind = .documentEnd then
      skip
      documentEnds fuel

/-- Reads the start of a document and its content. Where `implicit` allows it, a document may
begin without a marker. -/
def documentContent (implicit : Bool) (fuel : Nat) : Tell Unit := do
  let ⟨position, kind⟩ ← peek
  if implicit && !endsDocument kind then
    tell position .documentStart
    node true false fuel
  else
    directives fuel false
    let ⟨position, kind⟩ ← peek
    unless kind = .documentStart do fail .documentStartExpected position
    skip
    tell position .documentStart
    nodeUnless endsDocument true false fuel

/-- Reads the end of a document; says whether a marker stood there. -/
def documentEnd : Tell Bool := do
  let ⟨position, kind⟩ ← peek
  let marked := kind = .documentEnd
  if marked then
    skip
  else if isDirective kind then
    fail .directiveInDocument position
  declare none
  tell position .documentEnd
  return marked

/-- Reads the documents of a stream. Anchors are known within one document. -/
def documents (implicit : Bool) : (fuel : Nat) → Tell Unit
  | 0 => pure ()
  | fuel + 1 => do
    documentEnds fuel
    let ⟨position, kind⟩ ← peek
    if kind = .streamEnd then
      tell position .streamEnd
    else
      modify fun s => { s with anchors := [] }
      documentContent implicit fuel
      let marked ← documentEnd
      documents marked fuel

end Tell

/-- The events of a token stream, or the first fault. -/
def Event.ofTokens (stream : TokenStream) : Except Fault (List Event) := do
  let (_, s) ← (do
    Tell.tell {} .streamStart
    Tell.documents true (4 * stream.tokens.length + 4)).run { stream }
  return s.events.toList

/-- The events of a text, or its first fault. -/
def Event.ofText (text : String) : Except Fault (List Event) :=
  Event.ofTokens (TokenStream.ofText text)

end TestScript.Yaml
