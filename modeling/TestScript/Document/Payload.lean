import TestScript.Document.Node
import TestScript.Payload
import TestScript.Number.Integer

/-!
# The payload of a node

A node as a structured value. A plain scalar is an integer, another number or a boolean if it
reads as one; every other scalar is a text. Integers are never rounded: one that no 64-bit word
holds stays a text.
-/

namespace TestScript.Document

open Number

/-- Whether a 64-bit word holds an integer, with a sign or without. -/
def fitsWord (n : Int) : Bool :=
  -Int.pow 2 63 ≤ n && n < Int.pow 2 64

/-- The value of a plain scalar. -/
def plainPayload (text : String) : Payload :=
  match readInteger? text.toList with
  | some n => if fitsWord n then .int n else .text text
  | none =>
    match Double.read? text.toList with
    | some x => .float x
    | none =>
      if text = "true" ∨ text = "True" ∨ text = "TRUE" then .bool true
      else if text = "false" ∨ text = "False" ∨ text = "FALSE" then .bool false
      else .text text

/-- The value of a scalar. -/
def scalarPayload (text : String) (quoted : Bool) : Payload :=
  if quoted then .text text else plainPayload text

namespace Node

mutual

/-- The structured value of a node. -/
def toPayload : Node → Payload
  | .mapping entries _ _ => .object (memberPayloads entries [])
  | .list items _ => .list (itemPayloads items)
  | .scalar text quoted _ => scalarPayload text quoted
  | .null _ => .null

/-- The members of an object, behind those already there. -/
def memberPayloads :
    List (Entry Node) → List (String × Payload) → List (String × Payload)
  | [], members => members
  | ⟨key, _, value⟩ :: entries, members =>
    memberPayloads entries (Payload.setMember key (toPayload value) members)

/-- The items of a list. -/
def itemPayloads : List Node → List Payload
  | [] => []
  | item :: items => toPayload item :: itemPayloads items

end

end Node
end TestScript.Document
