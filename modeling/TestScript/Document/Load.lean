import TestScript.Document.Builder
import TestScript.Yaml.Event.OfTokens

/-!
# Loading a document

A text is loaded into the tree of its one document. A text that is not YAML is reported as
such, wherever the fault is; only then does it matter whether its events are refused. A text
without a document loads as nothing.
-/

namespace TestScript.Document

/-- Why a text is no document. -/
inductive LoadCause where
  | fault (cause : Yaml.Cause)
  | refused (reason : Refusal)
  deriving DecidableEq, Repr

/-- The words in which a cause is reported. -/
def LoadCause.message : LoadCause → String
  | .fault cause => cause.message
  | .refused reason => reason.message

/-- Why a text is no document, and where that shows. -/
structure LoadError where
  cause : LoadCause
  position : Position
  deriving DecidableEq, Repr

/-- The words in which an error is reported. -/
def LoadError.message (e : LoadError) : String :=
  e.cause.message

/-- The tree that a whole stream of events builds, or why it is refused. -/
def ofEvents (events : List Yaml.Event) : Except LoadError Node :=
  let b := Builder.run events
  match b.refusal with
  | some (reason, position) => .error ⟨.refused reason, position⟩
  | none => .ok (b.root.getD (.null {}))

/-- Loads the document of a text. -/
def load (text : String) : Except LoadError Node := do
  let events ← (Yaml.Event.ofText text).mapError fun f => ⟨.fault f.cause, f.position⟩
  ofEvents events

end TestScript.Document
