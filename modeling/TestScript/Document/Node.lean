import TestScript.Position

/-!
# The tree of a document

A document is a tree of mappings, lists and scalars. Mappings keep the order of their entries,
and every key and every value knows where it stands in the text.
-/

namespace TestScript.Document

/-- A key of a mapping, where it stands, and its value. -/
structure Entry (α : Type) where
  key : String
  position : Position
  value : α
  deriving Repr

/-- A node of a document. -/
inductive Node where
  /-- `flow` says that the mapping is written inline, between braces. -/
  | mapping (entries : List (Entry Node)) (position : Position) (flow : Bool)
  | list (items : List Node) (position : Position)
  /-- `quoted` says that the scalar is written in any style but the plain one. -/
  | scalar (text : String) (quoted : Bool) (position : Position)
  | null (position : Position)
  deriving Repr, Inhabited

namespace Node

/-- Where a node stands. -/
def position : Node → Position
  | .mapping _ p _ => p
  | .list _ p => p
  | .scalar _ _ p => p
  | .null p => p

/-- What a node is, in words. -/
def kindName : Node → String
  | .mapping .. => "a mapping"
  | .list .. => "a list"
  | .scalar .. => "a scalar"
  | .null _ => "nothing"

/-- A collection without members, or nothing at all. A scalar is never empty. -/
def isEmpty : Node → Bool
  | .mapping entries _ _ => entries.isEmpty
  | .list items _ => items.isEmpty
  | .scalar .. => false
  | .null _ => true

end Node
end TestScript.Document
