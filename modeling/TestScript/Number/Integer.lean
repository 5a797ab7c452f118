/-!
# Integers written in decimal

An integer literal is an optional sign and one or more ASCII digits, and nothing else.
-/

namespace TestScript.Number

/-- Takes one leading sign off: whether it was a minus, and what follows. -/
def splitSign : List Char → Bool × List Char
  | '-' :: cs => (true, cs)
  | '+' :: cs => (false, cs)
  | cs => (false, cs)

/-- One or more ASCII digits. -/
def isDigits (cs : List Char) : Bool :=
  !cs.isEmpty && cs.all Char.isDigit

theorem isDigits_iff {cs : List Char} : isDigits cs = true ↔ cs ≠ [] ∧ ∀ c ∈ cs, c.isDigit := by
  simp [isDigits]

/-- The number that decimal digits denote, `start` being what stands before them. -/
def ofDigitsFrom (start : Nat) (cs : List Char) : Nat :=
  cs.foldl (fun n c => 10 * n + (c.toNat - '0'.toNat)) start

/-- The number that decimal digits denote. -/
def ofDigits (cs : List Char) : Nat :=
  ofDigitsFrom 0 cs

/-- An optional sign and one or more digits. -/
def isIntegerLiteral (cs : List Char) : Bool :=
  isDigits (splitSign cs).2

/-- The integer that an integer literal denotes. -/
def readInteger? (cs : List Char) : Option Int :=
  let (negative, digits) := splitSign cs
  if isDigits digits then
    some (if negative then -(ofDigits digits : Int) else ofDigits digits)
  else
    none

/-- Exactly the integer literals denote an integer. -/
theorem isSome_readInteger? (cs : List Char) : (readInteger? cs).isSome = isIntegerLiteral cs := by
  simp only [readInteger?, isIntegerLiteral]
  split <;> simp_all

/-- Reads digits with an optional plus sign as a number below `bound`. -/
def readNatBelow? (bound : Nat) (cs : List Char) : Option Nat :=
  let digits := match cs with
    | '+' :: ds => ds
    | ds => ds
  if isDigits digits ∧ ofDigits digits < bound then some (ofDigits digits) else none

theorem readNatBelow?_plus {bound : Nat} {ds : List Char} :
    readNatBelow? bound ('+' :: ds) =
      if isDigits ds ∧ ofDigits ds < bound then some (ofDigits ds) else none :=
  rfl

theorem readNatBelow?_of_ne_plus {bound : Nat} {cs : List Char} (h : cs.head? ≠ some '+') :
    readNatBelow? bound cs =
      if isDigits cs ∧ ofDigits cs < bound then some (ofDigits cs) else none := by
  unfold readNatBelow?
  split
  · simp at h
  · rfl

/-- A natural number is read from its digits, with a plus sign in front of them or without. -/
theorem readNatBelow?_eq_some_iff {bound n : Nat} {cs : List Char} :
    readNatBelow? bound cs = some n ↔ ∃ sign digits, cs = sign ++ digits ∧
      (sign = [] ∨ sign = ['+']) ∧ digits ≠ [] ∧ (∀ c ∈ digits, c.isDigit) ∧
      ofDigits digits = n ∧ n < bound := by
  constructor
  · intro h
    by_cases hcs : cs.head? = some '+'
    · obtain ⟨ds, rfl⟩ := List.head?_eq_some_iff.1 hcs
      rw [readNatBelow?_plus, Option.ite_none_right_eq_some, isDigits_iff] at h
      obtain ⟨⟨⟨hne, hall⟩, hlt⟩, hn⟩ := h
      cases hn
      exact ⟨['+'], ds, rfl, .inr rfl, hne, hall, rfl, hlt⟩
    · rw [readNatBelow?_of_ne_plus hcs, Option.ite_none_right_eq_some, isDigits_iff] at h
      obtain ⟨⟨⟨hne, hall⟩, hlt⟩, hn⟩ := h
      cases hn
      exact ⟨[], cs, rfl, .inl rfl, hne, hall, rfl, hlt⟩
  · intro h
    obtain ⟨sign, digits, rfl, rfl | rfl, hne, hall, rfl, hlt⟩ := h
    · have hplus : digits.head? ≠ some '+' := by
        intro h
        exact absurd (hall '+' (List.mem_of_head? h)) (by decide)
      rw [List.nil_append, readNatBelow?_of_ne_plus hplus, if_pos ⟨isDigits_iff.2 ⟨hne, hall⟩, hlt⟩]
    · rw [List.singleton_append, readNatBelow?_plus, if_pos ⟨isDigits_iff.2 ⟨hne, hall⟩, hlt⟩]

end TestScript.Number
