import TestScript.Document.Node
import TestScript.Yaml.Event

/-!
# Building the tree of a document

The events of a stream build its tree. What lies open is a stack of frames, one for each
collection whose end has not come. A stream with a second document, an alias, a key that is
not a scalar, or a key that its mapping already has is refused at the first such event, and
from then on nothing changes.
-/

namespace TestScript.Document

open Yaml (Event)

/-- Why a stream of events is no document. -/
inductive Refusal where
  | secondDocument
  | alias
  | keyNotScalar
  | duplicateKey (key : String)
  deriving DecidableEq, Repr

/-- The words in which a refusal is reported. -/
def Refusal.message : Refusal → String
  | .secondDocument => "a script must contain exactly one document"
  | .alias => "aliases are not supported in scripts"
  | .keyNotScalar => "mapping keys must be scalars"
  | .duplicateKey key => .join ["duplicate key '", key, "'"]

/-- A collection whose end has not come. -/
inductive Frame where
  /-- The entries so far, and a key that waits for its value. -/
  | mapping (entries : List (Entry Node)) (position : Position) (flow : Bool)
      (pending : Option (String × Position))
  | list (items : List Node) (position : Position)
  deriving Repr

namespace Frame

/-- Whether a mapping waits for its next key. -/
def awaitsKey : Frame → Bool
  | .mapping _ _ _ none => true
  | _ => false

/-- Whether a mapping has an entry with a key. -/
def hasKey (key : String) : Frame → Bool
  | .mapping entries _ _ _ => entries.any (·.key = key)
  | .list .. => false

/-- Takes a key. An indented mapping is marked at its first colon, never in front of its first
key, and an inline one at its brace: so a first key behind the mark tells that there is a
brace, and any other is where the mapping begins. -/
def takeKey (key : String) (p : Position) : Frame → Frame
  | .mapping [] start flow _ =>
    if p ≤ start then .mapping [] p flow (some (key, p))
    else .mapping [] start true (some (key, p))
  | .mapping entries start flow _ => .mapping entries start flow (some (key, p))
  | .list items start => .list items start

/-- Takes a node: as the next item, or as the value of the key that waits. -/
def takeNode (node : Node) : Frame → Frame
  | .list items start => .list (items ++ [node]) start
  | .mapping entries start flow (some (key, p)) =>
    .mapping (entries ++ [⟨key, p, node⟩]) start flow none
  | .mapping entries start flow none => .mapping entries start flow none

/-- The collection that a frame holds. -/
def close : Frame → Node
  | .mapping entries start flow _ => .mapping entries start flow
  | .list items start => .list items start

end Frame

/-- A tree under construction. -/
structure Builder where
  /-- The open collections, innermost first. -/
  stack : List Frame := []
  root : Option Node := none
  documents : Nat := 0
  refusal : Option (Refusal × Position) := none
  deriving Repr

namespace Builder

/-- Refuses the stream. -/
def refuse (b : Builder) (r : Refusal) (p : Position) : Builder :=
  { b with refusal := some (r, p) }

/-- Whether a key must come next. -/
def awaitsKey (b : Builder) : Bool :=
  match b.stack with
  | f :: _ => f.awaitsKey
  | [] => false

/-- Puts a key into the innermost mapping. -/
def key (b : Builder) (key : String) (p : Position) : Builder :=
  match b.stack with
  | f :: fs =>
    if f.hasKey key then b.refuse (.duplicateKey key) p
    else { b with stack := f.takeKey key p :: fs }
  | [] => b

/-- Puts a node into the innermost collection, or makes it the root. -/
def node (b : Builder) (n : Node) : Builder :=
  match b.stack with
  | f :: fs => { b with stack := f.takeNode n :: fs }
  | [] => { b with root := some n }

/-- Opens a collection, unless a key must come next. -/
def openFrame (b : Builder) (f : Frame) (p : Position) : Builder :=
  if b.awaitsKey then b.refuse .keyNotScalar p else { b with stack := f :: b.stack }

/-- Closes the innermost collection. -/
def closeFrame (b : Builder) : Builder :=
  match b.stack with
  | f :: fs => { b with stack := fs }.node f.close
  | [] => b

/-- The plain scalars that stand for nothing. -/
def isNull (text : String) : Bool :=
  text = "" || text = "~" || text = "null" || text = "Null" || text = "NULL"

/-- Takes a scalar as a key or as a node. -/
def scalar (b : Builder) (style : Yaml.Style) (text : String) (p : Position) : Builder :=
  if b.awaitsKey then b.key text p
  else if style = .plain ∧ isNull text then b.node (.null p)
  else b.node (.scalar text (style ≠ .plain) p)

/-- Takes one event, unless the stream has been refused. -/
def step (b : Builder) (e : Event) : Builder :=
  if b.refusal.isSome then b
  else match e.kind with
    | .documentStart =>
      let b := { b with documents := b.documents + 1 }
      if 1 < b.documents then b.refuse .secondDocument e.position else b
    | .scalar style text => b.scalar style text e.position
    | .mappingStart => b.openFrame (.mapping [] e.position false none) e.position
    | .sequenceStart => b.openFrame (.list [] e.position) e.position
    | .mappingEnd | .sequenceEnd => b.closeFrame
    | .alias => b.refuse .alias e.position
    | .streamStart | .streamEnd | .documentEnd => b

theorem step_of_refusal {b : Builder} (h : b.refusal.isSome) (e : Event) : b.step e = b := by
  simp [step, h]

/-- Once a stream is refused nothing changes. -/
theorem foldl_step_of_refusal {b : Builder} (h : b.refusal.isSome) (es : List Event) :
    es.foldl step b = b := by
  induction es with
  | nil => rfl
  | cons e es ih => rw [List.foldl_cons, step_of_refusal h, ih]

/-- Takes all events of a stream. -/
def run (events : List Event) : Builder :=
  events.foldl step {}

end Builder
end TestScript.Document
