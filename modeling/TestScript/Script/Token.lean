import TestScript.Position
import TestScript.Payload
import TestScript.Payload.Printer
import TestScript.Script.Keyword

/-!
# Tokens of a script

A script is flattened into tokens before its grammar is checked: keys become keywords and
identifiers, scalars become values, and a blob is one object. A token has the depth of the key
that it belongs to.
-/

namespace TestScript.Script

/-- What a token is. -/
inductive Token.Kind where
  | keyword (keyword : Keyword)
  | identifier (text : String)
  | value (text : String)
  | object (payload : Payload)
  deriving Repr

/-- A token: what it is, where its key or value stands, and the depth of its key. -/
structure Token where
  kind : Token.Kind
  position : Position
  depth : Nat
  deriving Repr

namespace Token

/-- The name of a token in the grammar. -/
def Kind.terminal : Kind → String
  | .keyword k => k.terminal
  | .identifier _ => "ID"
  | .value _ => "VALUE"
  | .object _ => "OBJECT"

/-- A token in the words of an error message. -/
def Kind.describe : Kind → String
  | .keyword k => .join ["keyword '", k.text, "'"]
  | .identifier text => .join ["identifier '", text, "'"]
  | .value text => .join ["value '", text, "'"]
  | .object _ => "object"

/-- A token with its text. -/
def Kind.display : Kind → String
  | .keyword k => k.terminal
  | .identifier text => .join ["ID(", text, ")"]
  | .value text => .join ["VALUE(", text, ")"]
  | .object payload => .join ["OBJECT(", payload.compact, ")"]

/-- A token with its place and its text. -/
def display (t : Token) : String :=
  toString t.position.line ++ ":" ++ toString t.position.column ++ " " ++ t.kind.display

end Token
end TestScript.Script
