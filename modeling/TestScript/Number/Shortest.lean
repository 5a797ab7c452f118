import TestScript.Number.Double

/-!
# Shortest decimal text

The text of a `Double` has the fewest digits that read back to the same number, and of those
the ones nearest to its value. On the grid of decimals with `n` digits only the two neighbours
of the value need to be tried: if any point of the grid reads back, one of them does.
-/

namespace TestScript.Number

/-- Decimal digits without a trailing zero, and the power of ten they are multiplied by. -/
structure Decimal where
  digits : Nat
  exponent : Int
  deriving DecidableEq, Repr

/-- The decimal exponents that are written without an exponent, as a range. -/
structure FloatLayout where
  least : Int
  greatest : Int

namespace Double

/-- The bounds of the reals that round to `x`, and `x` between them, over one denominator. -/
structure Interval where
  low : Nat
  value : Nat
  high : Nat
  den : Nat
  closed : Bool

/-- In quarters of the last binary place: the neighbours are 4 away, but only 2 below the
smallest mantissa of an exponent. The ends read back to `x` iff its mantissa is even. -/
def interval (x : Double) : Interval :=
  let m := x.mantissa
  let e := x.exponent - 2
  let (unit, den) := scaleTwo 1 1 (-e)
  let below := if m = Nat.pow 2 52 ∧ minExponent < x.exponent then 1 else 2
  ⟨(4 * m - below) * unit, 4 * m * unit, (4 * m + 2) * unit, den, m % 2 = 0⟩

/-- Whether the decimal `d * 10 ^ e` lies in the interval. -/
def Interval.admits (i : Interval) (d : Nat) (e : Int) : Bool :=
  let (x, den) := if 0 ≤ e then (d * Nat.pow 10 e.toNat, 1) else (d, Nat.pow 10 (-e).toNat)
  let low := i.low * den
  let high := i.high * den
  let x := x * i.den
  if i.closed then low ≤ x && x ≤ high else low < x && x < high

/-- The `k` with `10 ^ (k - 1) ≤ num / den < 10 ^ k`. -/
def decimalExponent (num den : Nat) : Int :=
  let t : Int := (digitCount num : Int) - digitCount den
  let reached :=
    if 0 ≤ t then den * Nat.pow 10 t.toNat ≤ num else den ≤ num * Nat.pow 10 (-t).toNat
  if reached then t + 1 else t

/-- Numerator and denominator of the value of the interval on the grid `10 ^ e`. -/
def Interval.onGrid (i : Interval) (e : Int) : Nat × Nat :=
  if 0 ≤ e then (i.value, i.den * Nat.pow 10 e.toNat)
  else (i.value * Nat.pow 10 (-e).toNat, i.den)

/-- The grid point next to the value that reads back; of two, the nearer one, and in the middle
the even one. -/
def Interval.pick? (i : Interval) (e : Int) : Option Nat :=
  let (num, den) := i.onGrid e
  let below := num / den
  match i.admits below e, i.admits (below + 1) e with
  | true, true => some (roundQuotient num den)
  | true, false => some below
  | false, true => some (below + 1)
  | false, false => none

/-- Tries the grids of `n`, `n + 1`, … digits, `tries` of them, and then takes the nearest point
of the next one. -/
def Interval.search (i : Interval) (k : Int) : (tries n : Nat) → Nat × Int
  | 0, n =>
    let (num, den) := i.onGrid (k - n)
    (roundQuotient num den, k - n)
  | tries + 1, n => match i.pick? (k - n) with
    | some d => (d, k - n)
    | none => i.search k tries (n + 1)

/-- Moves up to `most` trailing zeros of the digits into the exponent. -/
def stripZeros : (most : Nat) → Nat → Int → Decimal
  | 0, d, e => ⟨d, e⟩
  | most + 1, d, e => if d % 10 = 0 then stripZeros most (d / 10) (e + 1) else ⟨d, e⟩

/-- The shortest decimal that reads back to a number other than zero. On the grid of 17 digits
the nearest point always does. -/
def shortest (x : Double) : Decimal :=
  let i := x.interval
  let (d, e) := i.search (decimalExponent i.value i.den) 16 1
  stripZeros 17 d e

/-- Writes digits and an exponent. A number always shows a fraction or an exponent; an exponent
has a sign and no padding. -/
def layOut (layout : FloatLayout) (digits : List Char) (exponent : Int) : List Char :=
  let point : Int := digits.length + exponent
  if layout.least ≤ point - 1 ∧ point - 1 ≤ layout.greatest then
    if point ≤ 0 then
      '0' :: '.' :: (List.replicate (-point).toNat '0' ++ digits)
    else if digits.length ≤ point then
      digits ++ List.replicate (point - digits.length).toNat '0' ++ ['.', '0']
    else
      digits.take point.toNat ++ '.' :: digits.drop point.toNat
  else
    let fraction := match digits.drop 1 with
      | [] => []
      | ds => '.' :: ds
    let power := point - 1
    digits.take 1 ++ fraction ++ 'e' :: (if power < 0 then '-' else '+') ::
      Nat.toDigits 10 power.natAbs

/-- The shortest text of a number. -/
def render (layout : FloatLayout) (x : Double) : String :=
  let body :=
    if x.mantissa = 0 then ['0', '.', '0']
    else
      let d := x.shortest
      layOut layout (Nat.toDigits 10 d.digits) d.exponent
  String.ofList (if x.negative then '-' :: body else body)

end Double
end TestScript.Number
