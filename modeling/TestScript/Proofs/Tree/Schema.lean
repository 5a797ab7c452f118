import TestScript.Proofs.Grammar.Script
import TestScript.Proofs.Layout.Placed

/-!
# Scripts as documents

What a document must look like to be a script, and which script it is, said of its tree: which
keys a mapping has and in what order, what their values are, and where each part of the script
is found. There are no tokens here, and nothing is read in order.
-/

namespace TestScript

/-- The entries of a mapping; none for any other node. -/
def Document.Node.entries : Document.Node → List (Document.Entry Document.Node)
  | .mapping entries _ _ => entries
  | .list .. | .scalar .. | .null _ => []

namespace Script

open Document (Node Entry)

/-! ## Keys -/

/-- A place for one key of a mapping, which may be left out if it is optional. -/
structure Slot where
  keywords : List Keyword
  isOptional : Bool

/-- The keys of a mapping fill its slots in order. -/
inductive InOrder : List Slot → List String → Prop
  | nil : InOrder [] []
  | take {slot slots k keys} (hk : k ∈ slot.keywords) (h : InOrder slots keys) :
    InOrder (slot :: slots) (k.text :: keys)
  | leave {slot slots keys} (hopt : slot.isOptional = true) (h : InOrder slots keys) :
    InOrder (slot :: slots) keys

namespace Slot

/-- A key that may be left out. -/
def opt (k : Keyword) : Slot :=
  ⟨[k], true⟩

/-- A key that must not be left out. -/
def req (k : Keyword) : Slot :=
  ⟨[k], false⟩

/-- The keys of a script. -/
def script : List Slot :=
  [req .issue, opt .markers, opt .before, opt .after, req .steps]

/-- The keys of the hooks of a step. -/
def hooks : List Slot :=
  [opt .before, opt .after]

/-- The keys of a step with some keys for hooks. -/
def step (hooks : List Slot) : List Slot :=
  [opt .skipEnv, opt .skip, opt .markers, opt .flaky, ⟨[.parameterize, .foreach], true⟩] ++
    hooks ++ [opt .use, opt .input, opt .output]

end Slot

/-! ## Values -/

/-- A scalar. -/
def IsScalar : Node → Prop
  | .scalar .. => True
  | .mapping .. | .list .. | .null _ => False

/-- A scalar that counts retries. -/
def IsRetries : Node → Prop
  | .scalar text _ _ => ∃ n, IsRetryCount text n
  | .mapping .. | .list .. | .null _ => False

/-- A mapping, or nothing. -/
def IsMapping : Node → Prop
  | .mapping .. | .null _ => True
  | .list .. | .scalar .. => False

/-- What the value of a keyword is, where `IsStep` says what a step is. -/
def Holds (IsStep : Node → Prop) : Keyword → Node → Prop
  | .issue, value | .skipEnv, value | .use, value => IsScalar value
  | .flaky, value => IsRetries value
  | .markers, value | .skip, value => IsTexts value
  | .parameterize, value | .foreach, value => IsBlob false value
  | .input, value | .output, value => IsBlob true value
  | .before, value | .after, value => IsMapping value ∧ ∀ e ∈ value.entries, IsStep e.value
  | .steps, value =>
    IsMapping value ∧ value.entries ≠ [] ∧ ∀ e ∈ value.entries, IsStep e.value

/-- The keys of a mapping are in order, and each holds what it must. -/
def IsSection (slots : List Slot) (IsStep : Node → Prop) (entries : List (Entry Node)) : Prop :=
  InOrder slots (entries.map Entry.key) ∧
    ∀ e ∈ entries, ∀ k : Keyword, e.key = k.text → Holds IsStep k e.value

/-- A step without hooks. -/
def IsHookStep (value : Node) : Prop :=
  IsMapping value ∧ IsSection (Slot.step []) (fun _ => False) value.entries

/-- A step that may have hooks. -/
def IsMainStep (value : Node) : Prop :=
  IsMapping value ∧ IsSection (Slot.step Slot.hooks) IsHookStep value.entries

/-- A script, as a document. -/
def IsScript (root : Node) : Prop :=
  IsSection Slot.script IsMainStep root.entries

/-! ## Places -/

/-- A mapping of steps, or a step, is not written inline unless it is empty. -/
def Placed.IsBlock (x : Placed) : Prop :=
  x.role = .step ∨ (∃ k, x.role = .keyword k ∧ k.shape = .steps) →
    ∀ entries p, x.entry.value = .mapping entries p true → entries = []

/-- A document is a mapping over several lines, each of its keys stands in the column of its level,
where a level is `unit` columns wide, and steps are not written inline. -/
structure IsLaidOut (unit : Nat) (root : Node) : Prop where
  root_eq : ∃ entries p, root = .mapping entries p false ∧ entries ≠ []
  column_eq : ∀ x ∈ placed root, x.entry.position.column = baseColumn root + x.level * unit
  isBlock : ∀ x ∈ placed root, x.IsBlock

/-! ## What a document says -/

/-- The entry of a keyword among those of a mapping. -/
def clauseOf (entries : List (Entry Node)) (k : Keyword) : Option (Entry Node) :=
  entries.find? (·.key == k.text)

/-- The text of a scalar. -/
def textOf : Node → String
  | .scalar text _ _ => text
  | .mapping .. | .list .. | .null _ => ""

def issueOf (e : Entry Node) : Issue :=
  ⟨textOf e.value, e.value.position⟩

def markersOf (e : Entry Node) : Markers :=
  ⟨(texts true e.value).map Prod.fst, e.position⟩

def skipEnvOf (e : Entry Node) : SkipEnv :=
  ⟨textOf e.value, e.position⟩

/-- The texts of a list are the words of the reason. -/
def skipOf (e : Entry Node) : Skip :=
  let words := texts false e.value
  ⟨if words = [] then none else some (" ".intercalate (words.map Prod.fst)), e.position⟩

/-- The number that a text counts: that of its digits, behind a plus if there is one. -/
def retriesOf (text : String) : Nat :=
  Number.ofDigits ((Text.trimBlanks text.toList).dropWhile (· == '+'))

def flakyOf (e : Entry Node) : Flaky :=
  ⟨retriesOf (textOf e.value), e.position⟩

def paramOf (e : Entry Node) : Param :=
  ⟨e.value.toPayload, e.value.position⟩

def parameterizeOf (mode : RepeatMode) (e : Entry Node) : Parameterize :=
  ⟨mode, paramOf e, e.position⟩

def useOf (e : Entry Node) : Use :=
  ⟨textOf e.value, e.position⟩

def hooksOf {σ : Type} (stepOf : Entry Node → σ) (e : Entry Node) : Hooks σ :=
  ⟨e.value.entries.map stepOf, e.position⟩

/-- A step with a name; `hooksOf` finds its hooks among its clauses. A clause without members
counts as missing. -/
def stepWith {η : Type} (hooksOf : (Keyword → Option (Entry Node)) → η) (name : String × Position)
    (clause : Keyword → Option (Entry Node)) : Step η where
  id := name.1
  skipEnv := (clause .skipEnv).map skipEnvOf
  skip := (clause .skip).map skipOf
  markers := ((clause .markers).map markersOf).filter (!·.names.isEmpty)
  flaky := (clause .flaky).map flakyOf
  parameterize := ((clause .parameterize).map (parameterizeOf .parameterize)).or
    ((clause .foreach).map (parameterizeOf .foreach))
  hooks := hooksOf clause
  uses := (clause .use).map useOf
  input := (clause .input).map fun e => [paramOf e]
  output := (clause .output).map fun e => [paramOf e]
  position := name.2

def stepOf {η : Type} (hooksOf : (Keyword → Option (Entry Node)) → η) (e : Entry Node) : Step η :=
  stepWith hooksOf (e.key, e.position) (clauseOf e.value.entries)

def hookStepOf : Entry Node → HookStep :=
  stepOf fun _ => ()

def ownHooksOf (clause : Keyword → Option (Entry Node)) : OwnHooks :=
  ⟨((clause .before).map (hooksOf hookStepOf)).filter (!·.steps.isEmpty),
    ((clause .after).map (hooksOf hookStepOf)).filter (!·.steps.isEmpty)⟩

def mainStepOf : Entry Node → MainStep :=
  stepOf ownHooksOf

/-- A script with some clauses. -/
def scriptWith (clause : Keyword → Option (Entry Node)) : Script where
  issue := ((clause .issue).map issueOf).getD ⟨"", {}⟩
  markers := ((clause .markers).map markersOf).filter (!·.names.isEmpty)
  before := ((clause .before).map (hooksOf mainStepOf)).filter (!·.steps.isEmpty)
  after := ((clause .after).map (hooksOf mainStepOf)).filter (!·.steps.isEmpty)
  steps := ((clause .steps).map fun e => e.value.entries.map mainStepOf).getD []
  position := ((clause .issue).map Entry.position).getD {}

/-- The script that a document is. -/
def scriptOf (root : Node) : Script :=
  scriptWith (clauseOf root.entries)

end Script
end TestScript
