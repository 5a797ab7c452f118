import TestScript.Yaml.Token

/-!
# Events of a YAML stream

The events of a stream tell its documents and their nodes in reading order: a scalar is one
event, a collection is what lies between its start and its end. In a mapping, keys and values
take turns.
-/

namespace TestScript.Yaml

/-- What an event tells. -/
inductive Event.Kind where
  | streamStart
  | streamEnd
  | documentStart
  | documentEnd
  | mappingStart
  | mappingEnd
  | sequenceStart
  | sequenceEnd
  | scalar (style : Style) (text : String)
  | alias
  deriving DecidableEq, Repr

/-- An event and the place it is marked at. -/
structure Event where
  position : Position
  kind : Event.Kind
  deriving DecidableEq, Repr

end TestScript.Yaml
