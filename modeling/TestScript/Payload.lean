import TestScript.Number.Double

/-!
# Payloads

A payload is a structured value: null, booleans, numbers, texts, lists, and objects whose
members keep their order. It is what a script hands to the step it describes.
-/

namespace TestScript

open Number

/-- A structured value. -/
inductive Payload where
  | null
  | bool (value : Bool)
  | int (value : Int)
  | float (value : Double)
  | text (value : String)
  | list (items : List Payload)
  | object (members : List (String × Payload))
  deriving Repr, Inhabited

namespace Payload

/-- Sets a member: a new key goes to the end, a known one keeps its place and takes the new
value. -/
def setMember (key : String) (value : Payload) :
    List (String × Payload) → List (String × Payload)
  | [] => [(key, value)]
  | (k, v) :: rest =>
    if k = key then (k, value) :: rest else (k, v) :: setMember key value rest

/-- The keys keep their order, and a new one goes to the end. -/
theorem keys_setMember (key : String) (value : Payload) (members : List (String × Payload)) :
    (setMember key value members).map Prod.fst =
      if key ∈ members.map Prod.fst then members.map Prod.fst
      else members.map Prod.fst ++ [key] := by
  induction members with
  | nil => simp [setMember]
  | cons m ms ih =>
    obtain ⟨k, v⟩ := m
    by_cases hk : k = key
    · simp [setMember, hk]
    · have : key ≠ k := fun e => hk e.symm
      simp only [setMember, hk, if_false, List.map_cons, ih, List.mem_cons, this, false_or]
      split <;> simp

end Payload
end TestScript
