import TestScript.Document.Payload
import TestScript.Script.Token
import TestScript.Text.Blank

/-!
# The layout of a script

A document is flattened into the tokens of a script in reading order. The column of a key must
agree with how deep the key is nested: the first key of the document sets the left margin, and
each level is one indent unit further. Only blobs may be written inline.
-/

namespace TestScript.Script

open Document (Node Entry)

/-- Why a document is not laid out like a script. -/
inductive LayoutCause where
  | misaligned (key : String) (unit : Nat)
  | wrongLevel (key : String) (expected found : Nat)
  | unexpectedShape (key expected found : String)
  | emptyBlob (key : String)
  | inlineMapping (key : String)
  deriving DecidableEq, Repr

/-- The words in which a cause is reported. -/
def LayoutCause.message : LayoutCause → String
  | .misaligned key unit =>
    .join ["key '", key, "' is not aligned to the ", toString unit, "-column indentation"]
  | .wrongLevel key expected found =>
    .join ["key '", key, "' is indented at level ", toString found, ", expected level ",
      toString expected]
  | .unexpectedShape key expected found =>
    .join ["value of '", key, "' must be ", expected, ", found ", found]
  | .emptyBlob key => .join ["section '", key, "' must not be empty"]
  | .inlineMapping key =>
    .join ["value of '", key, "' is an inline \x7b...\x7d mapping; only input, output, ",
      "parameterize and foreach may be written inline"]

/-- Why a document is not laid out like a script, and where that shows. -/
structure LayoutError where
  cause : LayoutCause
  position : Position
  deriving DecidableEq, Repr

/-- The words in which an error is reported. -/
def LayoutError.message (e : LayoutError) : String :=
  e.cause.message

/-- Whether the identifiers of a mapping name steps, or stand for themselves. -/
inductive Context where
  | steps
  | body
  deriving DecidableEq, Repr

/-- What a key is in its place. -/
inductive Role where
  | keyword (k : Keyword)
  | step
  | other
  deriving DecidableEq, Repr

/-- The role of a key at a depth. -/
def Role.of (key : String) (depth : Nat) (context : Context) : Role :=
  match Keyword.classify? key depth, context with
  | some k, _ => .keyword k
  | none, .steps => .step
  | none, .body => .other

/-- The token of a key. -/
def Role.tokenKind (key : String) : Role → Token.Kind
  | .keyword k => .keyword k
  | .step | .other => .identifier key

/-- What the keys of a mapping are under a key, if that key opens a level at all. -/
def Role.opens : Role → Option Context
  | .keyword k => if k.shape = .steps then some .steps else none
  | .step | .other => some .body

/-- The left margin and the indent unit. -/
structure Margins where
  base : Nat
  unit : Nat

namespace Layout

/-- Refuses the shape of a value. -/
def refuseShape {α : Type} (key expected : String) (value : Node) : Except LayoutError α :=
  .error ⟨.unexpectedShape key expected value.kindName, value.position⟩

/-- Checks that a key of a level stands in the column of that level. -/
def checkColumn (m : Margins) (key : String) (p : Position) (level : Nat) :
    Except LayoutError Unit :=
  let offset := p.column - m.base
  if p.column < m.base ∨ offset % m.unit ≠ 0 then .error ⟨.misaligned key m.unit, p⟩
  else if offset / m.unit ≠ level then .error ⟨.wrongLevel key level (offset / m.unit), p⟩
  else .ok ()

/-- The values of the items of a list; missing items are passed over. -/
def itemTokens (key : String) (depth : Nat) : List Node → Except LayoutError (List Token)
  | [] => .ok []
  | .scalar text _ p :: items => do
    let rest ← itemTokens key depth items
    return ⟨.value text, p, depth⟩ :: rest
  | .null _ :: items => itemTokens key depth items
  | item :: _ => refuseShape key "a list of scalars" item

/-- The values of a scalar or of a list of scalars. With `split` each word of a scalar is a value
of its own. -/
def scalarTokens (key : String) (depth : Nat) (split : Bool) :
    Node → Except LayoutError (List Token)
  | .null _ => .ok []
  | .scalar text _ p =>
    .ok ((if split then Text.words text else [text]).map fun word => ⟨.value word, p, depth⟩)
  | .list items _ => itemTokens key depth items
  | value => refuseShape key "a scalar or a list of scalars" value

/-- The object that a blob is. -/
def blobTokens (key : String) (p : Position) (depth : Nat) (mappingOnly : Bool) (value : Node) :
    Except LayoutError (List Token) :=
  if value.isEmpty then .error ⟨.emptyBlob key, p⟩
  else match value with
    | .scalar .. => refuseShape key "a mapping or a list" value
    | .list .. =>
      if mappingOnly then refuseShape key "a mapping" value
      else .ok [⟨.object value.toPayload, value.position, depth⟩]
    | _ => .ok [⟨.object value.toPayload, value.position, depth⟩]

/-- The tokens of a value that opens no level. -/
def flatTokens (key : String) (p : Position) (depth : Nat) (role : Role) (value : Node) :
    Except LayoutError (List Token) :=
  match role with
  | .keyword k =>
    match k.shape, value with
    | .steps, .null _ => .ok []
    | .steps, _ => refuseShape key "a mapping of steps" value
    | .scalar, .null _ => .ok []
    | .scalar, .scalar text _ q => .ok [⟨.value text, q, depth⟩]
    | .scalar, _ => refuseShape key "a scalar" value
    | .scalars, _ => scalarTokens key depth false value
    | .names, _ => scalarTokens key depth true value
    | .blob mappingOnly, _ => blobTokens key p depth mappingOnly value
  | .step =>
    match value with
    | .null _ => .ok []
    | _ => refuseShape key "a mapping of step clauses" value
  | .other => scalarTokens key depth false value

mutual

/-- The tokens of the entries of a mapping at a level. -/
def entryTokens (m : Margins) (level : Nat) (context : Context) :
    List (Entry Node) → Except LayoutError (List Token)
  | [] => .ok []
  | ⟨key, p, value⟩ :: entries => do
    checkColumn m key p level
    let role := Role.of key level context
    let own ← valueTokens m key p level role value
    let rest ← entryTokens m level context entries
    return ⟨role.tokenKind key, p, level⟩ :: own ++ rest

/-- The tokens of the value of a key. -/
def valueTokens (m : Margins) (key : String) (p : Position) (level : Nat) (role : Role) :
    Node → Except LayoutError (List Token)
  | .mapping entries q flow =>
    match role.opens with
    | some context =>
      if flow && !entries.isEmpty then .error ⟨.inlineMapping key, q⟩
      else entryTokens m (level + 1) context entries
    | none => flatTokens key p level role (.mapping entries q flow)
  | value => flatTokens key p level role value

end

/-- The margins of a mapping: its first key sets the left one, and a unit of 0 counts as 1. -/
def margins (unit : Nat) (entries : List (Entry Node)) : Margins :=
  ⟨match entries with
    | e :: _ => e.position.column
    | [] => 0, max unit 1⟩

end Layout

/-- The indent unit of a script unless another one is asked for. -/
def defaultUnit : Nat := 2

open Layout in
/-- The tokens of a document, or the first place where it is not laid out like a script. -/
def tokensOf (unit : Nat) : Node → Except LayoutError (List Token)
  | .mapping entries p flow =>
    if flow then .error ⟨.inlineMapping "document", p⟩
    else entryTokens (margins unit entries) 0 .body entries
  | .null _ => .ok []
  | value => refuseShape "document" "a mapping" value

end TestScript.Script
