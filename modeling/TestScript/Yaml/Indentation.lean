import TestScript.Position

/-!
# Indentation of block collections

The open block collections form a stack of columns. `roll` opens one at a column, `unroll`
closes those right of a column. Between a key and its value the column is moved by one without
opening anything: such a level is provisional and goes away without closing a collection.
-/

namespace TestScript.Yaml

/-- One level of the stack: the column outside of it, and whether a collection opened it. -/
structure Level where
  outer : Int
  opened : Bool
  deriving DecidableEq, Repr

/-- The column of the innermost level, `-1` outside of all, and the levels, innermost first. -/
structure Indentation where
  column : Int := -1
  levels : List Level := []
  deriving DecidableEq, Repr

namespace Indentation

/-- Whether the innermost level was opened by a collection. -/
def onCollection (i : Indentation) : Bool :=
  match i.levels with
  | l :: _ => l.opened
  | [] => false

/-- Whether any level is open. -/
def inBlock (i : Indentation) : Bool :=
  !i.levels.isEmpty

/-- Closes the levels right of `column`; counts the collections among them. -/
def unrollLevels (column : Int) : List Level → (innermost : Int) → Nat × Indentation
  | [], innermost => (0, ⟨innermost, []⟩)
  | l :: ls, innermost =>
    if column < innermost then
      let (closed, i) := unrollLevels column ls l.outer
      (closed + if l.opened then 1 else 0, i)
    else
      (0, ⟨innermost, l :: ls⟩)

/-- Closes the levels right of `column`; counts the collections among them. -/
def unroll (column : Int) (i : Indentation) : Nat × Indentation :=
  unrollLevels column i.levels i.column

/-- Takes the provisional levels away. -/
def settleLevels : List Level → (innermost : Int) → Indentation
  | [], innermost => ⟨innermost, []⟩
  | l :: ls, innermost =>
    if l.opened then ⟨innermost, l :: ls⟩ else settleLevels ls l.outer

/-- Takes the provisional levels away. -/
def settle (i : Indentation) : Indentation :=
  settleLevels i.levels i.column

/-- Opens a collection at `column` if that is deeper than what is open; a provisional level that
is not deeper gives way. Says whether a collection was opened. -/
def roll (column : Int) (i : Indentation) : Bool × Indentation :=
  let i := match i.levels with
    | l :: ls => if i.column ≤ column ∧ !l.opened then ⟨l.outer, ls⟩ else i
    | [] => i
  if i.column < column then (true, ⟨column, ⟨i.column, true⟩ :: i.levels⟩) else (false, i)

/-- Puts a provisional level one column further on a collection. -/
def nudge (i : Indentation) : Indentation :=
  if i.onCollection then ⟨i.column + 1, ⟨i.column, false⟩ :: i.levels⟩ else i

end Indentation
end TestScript.Yaml
