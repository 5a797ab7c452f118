/-!
# Positions in a text

A position is a line and a column, both counted from 0; a column counts characters. Positions
are ordered as the text is read: by line, then by column.
-/

namespace TestScript

/-- A place in a text: the line, and how many characters of that line stand before it. -/
structure Position where
  line : Nat := 0
  column : Nat := 0
  deriving DecidableEq, Repr, Inhabited

namespace Position

/-- Reading order: the earlier line first, on one line the smaller column. -/
instance : Ord Position where
  compare a b := (compare a.line b.line).then (compare a.column b.column)

instance : LE Position where
  le a b := a.line < b.line ∨ a.line = b.line ∧ a.column ≤ b.column

instance (a b : Position) : Decidable (a ≤ b) :=
  inferInstanceAs (Decidable (a.line < b.line ∨ a.line = b.line ∧ a.column ≤ b.column))

theorem le_iff {a b : Position} :
    a ≤ b ↔ a.line < b.line ∨ a.line = b.line ∧ a.column ≤ b.column :=
  Iff.rfl

/-- The words a person reads: `line 3 column 4`. -/
def describe (p : Position) : String :=
  "line " ++ toString p.line ++ " column " ++ toString p.column

end Position
end TestScript
