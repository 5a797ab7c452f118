import TestScript.Yaml.Fault

/-!
# Tokens of a YAML text

A YAML text is read into tokens first. Where a block collection begins and ends follows from
the indentation and is a token of its own. A text may stop being YAML after some good tokens: a
`TokenStream` is the good ones and how they end.
-/

namespace TestScript.Yaml

/-- How a scalar is written. -/
inductive Style where
  | plain
  | singleQuoted
  | doubleQuoted
  | literal
  | folded
  deriving DecidableEq, Repr

/-- What a token is. -/
inductive Token.Kind where
  | streamEnd
  | versionDirective
  | tagDirective (handle : String)
  | otherDirective
  | documentStart
  | documentEnd
  | blockSequenceStart
  | blockMappingStart
  | blockEnd
  | flowSequenceStart
  | flowSequenceEnd
  | flowMappingStart
  | flowMappingEnd
  | blockEntry
  | flowEntry
  | key
  | value
  | anchor (name : String)
  | alias (name : String)
  | tag (handle : String)
  | scalar (style : Style) (text : String)
  deriving DecidableEq, Repr

/-- A token and where it stands. -/
structure Token where
  position : Position
  kind : Token.Kind
  deriving DecidableEq, Repr

/-- The tokens that can be read, and how they end: with the end of the text or with a fault. -/
structure TokenStream where
  tokens : List Token
  ending : Except Fault Position

namespace TokenStream

/-- The next token; behind the last one stands the end of the stream. -/
def peek (s : TokenStream) : Except Fault Token :=
  match s.tokens with
  | t :: _ => pure t
  | [] => s.ending.map (⟨·, .streamEnd⟩)

/-- What follows the next token. -/
def drop (s : TokenStream) : TokenStream :=
  { s with tokens := s.tokens.tail }

end TokenStream
end TestScript.Yaml
