/-!
# Tables

A table has items under keys: values, and tables inside it. Where a table comes from decides what
may be added to it. A table with a header gets no second one, and a key with dots does not reach
into it from outside. A table that a key with dots made gets no header. One that stands around
another's header is open to a header of its own.
-/

namespace TestScript.Toml

/-- A value. What a number with a fraction, a text, a date or a collection holds is not kept. -/
inductive Value where
  | integer (n : Int)
  | boolean (b : Bool)
  | other
  deriving DecidableEq, Repr

/-- Where a table comes from. -/
inductive Form where
  /-- It has a header of its own. -/
  | header
  /-- It is the last row of an array of tables. -/
  | row
  /-- It stands around a table with a header. -/
  | around
  /-- It stands in a key with dots. -/
  | dotted
  deriving DecidableEq, Repr

/-- What a key stands for. -/
inductive Item where
  | value (v : Value)
  | table (form : Form) (entries : List (String × Item))
  deriving Repr

/-- The items of a table, each under its key. -/
abbrev Table := List (String × Item)

namespace Table

/-- Puts an item under a key, in place of the one that was there. -/
def put (key : String) (item : Item) : Table → Table
  | [] => [(key, item)]
  | (k, i) :: t => if k = key then (key, item) :: t else (k, i) :: put key item t

/-- The table under a key that leads further inside: a missing one comes from `form`. -/
def inside? (form : Form) : Option Item → Option (Form × Table)
  | none => some (form, [])
  | some (.table form' t) => some (form', t)
  | some (.value _) => none

/-- Changes the table that a header leads to; the tables around it come about on the way. -/
def within? (change : Table → Option Table) : (path : List String) → Table → Option Table
  | [], t => change t
  | key :: path, t => do
    let (form, inner) ← inside? .around (t.lookup key)
    let inner ← within? change path inner
    return t.put key (.table form inner)

/-- Opens the table of a header. -/
def openTable? (path : List String) (t : Table) : Option Table := do
  let key ← path.getLast?
  t.within? (fun t =>
    match t.lookup key with
    | none => some (t.put key (.table .header []))
    | some (.table .around inner) => some (t.put key (.table .header inner))
    | some _ => none) path.dropLast

/-- Opens a row of an array of tables. -/
def openRow? (path : List String) (t : Table) : Option Table := do
  let key ← path.getLast?
  t.within? (fun t =>
    match t.lookup key with
    | none | some (.table .row _) => some (t.put key (.table .row []))
    | some _ => none) path.dropLast

/-- Adds a value under a key that is free. A key with dots leads through tables without a header,
and to one that such a key made. -/
def insert? (v : Value) : (path : List String) → Table → Option Table
  | [], _ => none
  | [key], t => if (t.lookup key).isSome then none else some (t.put key (.value v))
  | key :: path, t => do
    let (form, inner) ← inside? .dotted (t.lookup key)
    guard (form ≠ .header ∧ (form = .dotted ∨ 2 ≤ path.length))
    let inner ← insert? v path inner
    return t.put key (.table form inner)

end Table
end TestScript.Toml
