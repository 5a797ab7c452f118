/-!
# Keywords

A key of a script is a keyword only at certain depths; everywhere else it is an identifier,
however it is spelled. A keyword says what its value must look like.
-/

namespace TestScript.Script

/-- The keywords of a script. -/
inductive Keyword where
  | issue
  | markers
  | before
  | after
  | steps
  | skipEnv
  | skip
  | flaky
  | parameterize
  | foreach
  | use
  | input
  | output
  deriving DecidableEq, Repr

/-- What the value of a keyword must look like. All but a blob may be missing. -/
inductive Shape where
  /-- A mapping of steps. -/
  | steps
  /-- One scalar. -/
  | scalar
  /-- A scalar or a list of scalars. -/
  | scalars
  /-- Names: a scalar made of words, or a list with one name an item. -/
  | names
  /-- A mapping that is taken as a whole and must not be empty; a list will do, too, unless
  `mappingOnly`. -/
  | blob (mappingOnly : Bool)
  deriving DecidableEq, Repr

namespace Keyword

/-- All keywords. -/
def all : List Keyword :=
  [issue, markers, before, after, steps, skipEnv, skip, flaky, parameterize, foreach, use, input,
    output]

/-- How a keyword is spelled. -/
def text : Keyword → String
  | issue => "issue"
  | markers => "markers"
  | before => "before"
  | after => "after"
  | steps => "steps"
  | skipEnv => "skip_env"
  | skip => "skip"
  | flaky => "flaky"
  | parameterize => "parameterize"
  | foreach => "foreach"
  | use => "use"
  | input => "input"
  | output => "output"

/-- The name of a keyword in the grammar. -/
def terminal : Keyword → String
  | issue => "ISSUE"
  | markers => "MARKERS"
  | before => "BEFORE"
  | after => "AFTER"
  | steps => "STEPS"
  | skipEnv => "SKIP_ENV"
  | skip => "SKIP"
  | flaky => "FLAKY"
  | parameterize => "PARAMETERIZE"
  | foreach => "FOREACH"
  | use => "USE"
  | input => "INPUT"
  | output => "OUTPUT"

/-- The depths at which a keyword is one: the whole script has depth 0, a step depth 2, and a
step among the hooks of a step depth 4. -/
def depths : Keyword → List Nat
  | issue | steps => [0]
  | markers => [0, 2, 4]
  | before | after => [0, 2]
  | skipEnv | skip | flaky | parameterize | foreach | use | input | output => [2, 4]

/-- What the value of a keyword must look like. -/
def shape : Keyword → Shape
  | issue | skipEnv | flaky | use => .scalar
  | steps | before | after => .steps
  | markers => .names
  | skip => .scalars
  | parameterize | foreach => .blob false
  | input | output => .blob true

/-- Whether a keyword is one at a depth. -/
def allowedAt (k : Keyword) (depth : Nat) : Bool :=
  k.depths.contains depth

/-- The keyword that is spelled so, at any depth. -/
def ofText? (s : String) : Option Keyword :=
  all.find? (·.text == s)

/-- The keyword that a key is at a depth; none for an identifier. -/
def classify? (key : String) (depth : Nat) : Option Keyword :=
  (ofText? key).filter (·.allowedAt depth)

theorem text_injective {a b : Keyword} (h : a.text = b.text) : a = b := by
  cases a <;> cases b <;> first | rfl | exact absurd h (by decide)

end Keyword
end TestScript.Script
