import TestScript.Number.Integer

/-!
# Dates and times of TOML

A date is `year-month-day` of the calendar, a time `hour:minute:second` with an optional
fraction. A date may have a time behind it, and the two together the distance of their zone.
-/

namespace TestScript.Toml

open Number

/-- Reads a number of `n` digits between two bounds. -/
def digits? (n least greatest : Nat) (cs : List Char) : Option (Nat × List Char) :=
  let ds := cs.take n
  let value := ofDigits ds
  if ds.length = n ∧ isDigits ds ∧ least ≤ value ∧ value ≤ greatest then
    some (value, cs.drop n)
  else none

/-- Reads one character. -/
def sign? (c : Char) : List Char → Option (List Char)
  | d :: cs => if d = c then some cs else none
  | [] => none

/-- How many days a month has; every fourth year is a leap year, but of the full centuries only
every fourth. -/
def daysIn (year month : Nat) : Nat :=
  if month = 2 then
    if year % 4 = 0 ∧ (year % 100 ≠ 0 ∨ year % 400 = 0) then 29 else 28
  else if month = 4 ∨ month = 6 ∨ month = 9 ∨ month = 11 then 30
  else 31

/-- Steps over a date. -/
def skipDate? (cs : List Char) : Option (List Char) := do
  let (year, cs) ← digits? 4 0 9999 cs
  let (month, cs) ← digits? 2 1 12 (← sign? '-' cs)
  let (_, cs) ← digits? 2 1 (daysIn year month) (← sign? '-' cs)
  return cs

/-- Steps over the fraction of a second, if there is one. -/
def skipFraction (cs : List Char) : List Char :=
  match cs with
  | '.' :: c :: more => if c.isDigit then more.dropWhile Char.isDigit else cs
  | _ => cs

/-- Steps over hours and minutes. -/
def skipMinutes? (cs : List Char) : Option (List Char) := do
  let (_, cs) ← digits? 2 0 23 cs
  let (_, cs) ← digits? 2 0 59 (← sign? ':' cs)
  return cs

/-- Steps over a time; a leap second has the number 60. -/
def skipTime? (cs : List Char) : Option (List Char) := do
  let (_, cs) ← digits? 2 0 60 (← sign? ':' (← skipMinutes? cs))
  return skipFraction cs

/-- Steps over the distance of a zone. -/
def skipZone? : List Char → Option (List Char)
  | c :: cs =>
    if c = 'Z' ∨ c = 'z' then some cs
    else if c = '+' ∨ c = '-' then skipMinutes? cs
    else none
  | [] => none

/-- Steps over a time behind a date, with its zone. -/
def skipClock? : List Char → Option (List Char)
  | c :: cs =>
    if c = 'T' ∨ c = 't' ∨ c = ' ' then
      (skipTime? cs).map fun rest => (skipZone? rest).getD rest
    else none
  | [] => none

/-- Steps over a date, a time, or both. -/
def skipDateTime? (cs : List Char) : Option (List Char) :=
  match skipDate? cs with
  | some rest => some ((skipClock? rest).getD rest)
  | none => skipTime? cs

end TestScript.Toml
