import TestScript.Script.Basic
import TestScript.Script.Token
import TestScript.Number.Integer
import TestScript.Text.Blank

/-!
# The grammar of scripts

    script := ISSUE VALUE markers? before? after? STEPS step+
    markers := MARKERS VALUE*
    before := BEFORE step*        after := AFTER step*
    step := ID skip_env? skip? markers? flaky? parameterize? before? after? use? input? output?
    skip_env := SKIP_ENV VALUE    skip := SKIP VALUE*       flaky := FLAKY VALUE
    parameterize := (PARAMETERIZE | FOREACH) OBJECT         use := USE VALUE
    input := INPUT OBJECT+        output := OUTPUT OBJECT+

The clauses of a script have depth 0 and those of a step the depth below its identifier; a
keyword at another depth is not expected. The steps among the hooks of a step have no hooks.

A list of tokens is read from left to right with one token of lookahead. Every terminal that is
turned down in front of a token is noted, so that an error can say what could have stood there.
-/

namespace TestScript.Script

/-- Why a list of tokens is no script. -/
inductive GrammarCause where
  | unexpectedToken (found : String) (expected : List String)
  | unexpectedEnd (expected : List String)
  | invalidValue (clause value reason : String)
  deriving DecidableEq, Repr

/-- The words for what could have stood somewhere. -/
def expectation : List String → String
  | [] => ""
  | [one] => .join [", expected ", one]
  | many => .join [", expected one of ", ", ".intercalate many]

/-- The words in which a cause is reported. -/
def GrammarCause.message : GrammarCause → String
  | .unexpectedToken found expected => .join ["unexpected ", found, expectation expected]
  | .unexpectedEnd expected => .join ["unexpected end of script", expectation expected]
  | .invalidValue clause value reason =>
    .join ["invalid ", clause, " value '", value, "': ", reason]

/-- The terminals that could have stood in the place of an error. -/
def GrammarCause.expected : GrammarCause → List String
  | .unexpectedToken _ expected | .unexpectedEnd expected => expected
  | .invalidValue .. => []

/-- Why a list of tokens is no script, and where that shows. -/
structure GrammarError where
  cause : GrammarCause
  position : Position
  deriving DecidableEq, Repr

/-- The words in which an error is reported. -/
def GrammarError.message (e : GrammarError) : String :=
  e.cause.message

/-- What is left of a list of tokens. -/
structure Lookahead where
  rest : List Token
  /-- The terminals turned down in front of `rest`, each once, in order. -/
  refused : List String := []
  /-- Where the token in front of `rest` stands. -/
  last : Position := {}

/-- A production: reads tokens and gives what they mean, or an error. -/
abbrev Production := StateT Lookahead (Except GrammarError)

namespace Grammar

/-! ### Terminals -/

/-- Notes that a terminal has been turned down. -/
def refuse (terminal : String) (s : Lookahead) : Lookahead :=
  if s.refused.contains terminal then s else { s with refused := s.refused ++ [terminal] }

/-- The error that nothing fits here. -/
def unexpected {α : Type} : Production α := fun s =>
  match s.rest with
  | t :: _ => .error ⟨.unexpectedToken t.kind.describe s.refused, t.position⟩
  | [] => .error ⟨.unexpectedEnd s.refused, s.last⟩

/-- Reads the next token if `meaning?` knows what it means; else the terminal is turned down. -/
def accept {α : Type} (terminal : String) (meaning? : Token → Option α) :
    Production (Option α) := fun s =>
  match s.rest with
  | t :: rest =>
    match meaning? t with
    | some a => .ok (some a, { rest, last := t.position })
    | none => .ok (none, refuse terminal s)
  | [] => .ok (none, refuse terminal s)

/-- Reads what must stand here. -/
def required {α : Type} (p : Production (Option α)) : Production α := do
  match ← p with
  | some a => return a
  | none => unexpected

/-- A keyword at a depth; gives where it stands. -/
def keyword (k : Keyword) (depth : Nat) : Production (Option Position) :=
  accept k.terminal fun t =>
    match t.kind with
    | .keyword k' => if k' = k ∧ t.depth = depth then some t.position else none
    | _ => none

/-- A value at any depth, with its place. -/
def value : Production (Option (String × Position)) :=
  accept "VALUE" fun t =>
    match t.kind with
    | .value text => some (text, t.position)
    | _ => none

/-- An object at any depth. -/
def object : Production (Option Param) :=
  accept "OBJECT" fun t =>
    match t.kind with
    | .object payload => some ⟨payload, t.position⟩
    | _ => none

/-- An identifier at a depth, with its place. -/
def identifier (depth : Nat) : Production (Option (String × Position)) :=
  accept "ID" fun t =>
    match t.kind with
    | .identifier text => if t.depth = depth then some (text, t.position) else none
    | _ => none

/-! ### Repetition -/

/-- Reads `p` again and again until it finds nothing, once more than `bound` is long at most. -/
def manyUpTo {α : Type} (p : Production (Option α)) : (bound : List Token) → Production (List α)
  | [] => return (← p).toList
  | _ :: bound => do
    match ← p with
    | none => return []
    | some a => return a :: (← manyUpTo p bound)

/-- Reads `p` again and again until it finds nothing. Each time but the last takes a token. -/
def many {α : Type} (p : Production (Option α)) : Production (List α) := fun s =>
  manyUpTo p s.rest s

/-- The values that stand here. -/
def values : Production (List String) := do
  return (← many value).map Prod.fst

/-! ### Clauses -/

/-- What a clause is, if its keyword stands here. -/
def clause {α : Type} (k : Keyword) (depth : Nat) (content : Position → Production α) :
    Production (Option α) := do
  match ← keyword k depth with
  | some p => return some (← content p)
  | none => return none

/-- Marker names; a clause without names counts as missing. -/
def markers (depth : Nat) : Production (Option Markers) := do
  let found ← clause .markers depth fun p => return (⟨← values, p⟩ : Markers)
  return found.filter (!·.names.isEmpty)

def skipEnv (depth : Nat) : Production (Option SkipEnv) :=
  clause .skipEnv depth fun p => return ⟨(← required value).1, p⟩

/-- The values are the words of the reason. -/
def skip (depth : Nat) : Production (Option Skip) :=
  clause .skip depth fun p => do
    let words ← values
    return ⟨if words.isEmpty then none else some (" ".intercalate words), p⟩

/-- The number of retries that a text gives, if it fits 32 bits. -/
def retries? (text : String) : Option Nat :=
  Number.readNatBelow? (Nat.pow 2 32) (Text.trimBlanks text.toList)

def flaky (depth : Nat) : Production (Option Flaky) :=
  clause .flaky depth fun p => do
    let (text, q) ← required value
    match retries? text with
    | some retries => return ⟨retries, p⟩
    | none =>
      throw ⟨.invalidValue "flaky" text "retry count must be a non-negative integer", q⟩

/-- A step is repeated in one mode or in the other. -/
def parameterize (depth : Nat) : Production (Option Parameterize) := do
  let content (mode : RepeatMode) (p : Position) : Production Parameterize := do
    return ⟨mode, ← required object, p⟩
  match ← clause .parameterize depth (content .parameterize) with
  | some found => return some found
  | none => clause .foreach depth (content .foreach)

def use (depth : Nat) : Production (Option Use) :=
  clause .use depth fun p => return ⟨(← required value).1, p⟩

/-- One object or more. -/
def params (k : Keyword) (depth : Nat) : Production (Option (List Param)) :=
  clause k depth fun _ => return (← required object) :: (← many object)

/-! ### Steps -/

/-- A step whose identifier has a depth; `hooks` reads its hooks. -/
def step {η : Type} (hooks : Nat → Production η) (depth : Nat) :
    Production (Option (Step η)) := do
  match ← identifier depth with
  | none => return none
  | some (id, position) =>
    let clauses := depth + 1
    let skipEnv ← skipEnv clauses
    let skip ← skip clauses
    let markers ← markers clauses
    let flaky ← flaky clauses
    let parameterize ← parameterize clauses
    let hooks ← hooks clauses
    let uses ← use clauses
    let input ← params .input clauses
    let output ← params .output clauses
    return some
      { id, skipEnv, skip, markers, flaky, parameterize, hooks, uses, input, output, position }

/-- A section of steps; one without steps counts as missing. -/
def hooksOf {σ : Type} (step : Nat → Production (Option σ)) (k : Keyword) (depth : Nat) :
    Production (Option (Hooks σ)) := do
  let found ← clause k depth fun p => return (⟨← many (step (depth + 1)), p⟩ : Hooks σ)
  return found.filter (!·.steps.isEmpty)

/-- A step among the hooks of a step. -/
def hookStep (depth : Nat) : Production (Option HookStep) :=
  step (fun _ => return ()) depth

/-- The hooks of a step. -/
def ownHooks (depth : Nat) : Production OwnHooks := do
  return ⟨← hooksOf hookStep .before depth, ← hooksOf hookStep .after depth⟩

/-- A step that may have hooks. -/
def mainStep (depth : Nat) : Production (Option MainStep) :=
  step ownHooks depth

/-- A whole script. -/
def script : Production Script := do
  let position ← required (keyword .issue 0)
  let (id, issuePosition) ← required value
  let markers ← markers 0
  let before ← hooksOf mainStep .before 0
  let after ← hooksOf mainStep .after 0
  let _ ← required (keyword .steps 0)
  let first ← required (mainStep 1)
  let steps := first :: (← many (mainStep 1))
  unless (← get).rest.isEmpty do unexpected
  return { issue := ⟨id, issuePosition⟩, markers, before, after, steps, position }

end Grammar

/-- The script that a list of tokens is, or the first place where it is none. -/
def ofTokens (tokens : List Token) : Except GrammarError Script :=
  (Grammar.script.run { rest := tokens }).map Prod.fst

end TestScript.Script
