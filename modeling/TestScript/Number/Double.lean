import TestScript.Number.Integer

/-!
# Binary floating-point numbers

`Double` is a finite number of the binary64 format, kept as an exact integer times a power of
two. A number written in decimal is rounded once, from its exact value, to the nearest
`Double`, a half going to the even neighbour; a value that rounds past the largest one is
refused, and a value too small for the format becomes a zero of its sign.
-/

namespace TestScript.Number

/-- The number `(-1) ^ negative * mantissa * 2 ^ exponent`. In the format `mantissa < 2 ^ 53`,
`-1074 ≤ exponent ≤ 971`, and `2 ^ 52 ≤ mantissa` unless the exponent is the least one. -/
structure Double where
  negative : Bool
  mantissa : Nat
  exponent : Int
  deriving DecidableEq, Repr

namespace Double

/-- The least exponent of the format. -/
def minExponent : Int := -1074

/-- The greatest exponent of the format. -/
def maxExponent : Int := 971

/-- The zero of a sign. -/
def zero (negative : Bool) : Double := ⟨negative, 0, minExponent⟩

/-- `num / den` rounded to the nearest integer, a half going to the even neighbour. -/
def roundQuotient (num den : Nat) : Nat :=
  let q := num / den
  let r := num % den
  if den < 2 * r ∨ 2 * r = den ∧ q % 2 = 1 then q + 1 else q

/-- Numerator and denominator of `num / den / 2 ^ e`. -/
def scaleTwo (num den : Nat) (e : Int) : Nat × Nat :=
  if 0 ≤ e then (num, den * Nat.pow 2 e.toNat) else (num * Nat.pow 2 (-e).toNat, den)

/-- The exponent at which the quotient `num / den` fills 53 binary digits, or the least one. -/
def exponentFor (num den : Nat) : Int :=
  let low : Int := (num.log2 : Int) - den.log2 - 53
  let (n, d) := scaleTwo num den low
  max minExponent (if n < d * Nat.pow 2 53 then low else low + 1)

/-- A mantissa and its exponent; a mantissa that rounding carried up to `2 ^ 53` is halved. -/
def normalize (m : Nat) (e : Int) : Nat × Int :=
  if m < Nat.pow 2 53 then (m, e) else (m / 2, e + 1)

/-- The number nearest to `num / den`, for a positive quotient. -/
def ofRatio? (negative : Bool) (num den : Nat) : Option Double :=
  let e := exponentFor num den
  let scaled := scaleTwo num den e
  let rounded := normalize (roundQuotient scaled.1 scaled.2) e
  if rounded.2 ≤ maxExponent then some ⟨negative, rounded.1, rounded.2⟩ else none

/-- How many decimal digits a positive number has. -/
def digitCount (n : Nat) : Nat :=
  (Nat.toDigits 10 n).length

/-- The number nearest to `digits * 10 ^ exponent`. A magnitude from `10 ^ 310` on is past the
format and one below `10 ^ (-330)` rounds to zero, so neither is expanded. -/
def ofDecimal? (negative : Bool) (digits : Nat) (exponent : Int) : Option Double :=
  if digits = 0 then some (zero negative)
  else
    let magnitude := exponent + digitCount digits
    if 310 < magnitude then none
    else if magnitude < -330 then some (zero negative)
    else if 0 ≤ exponent then ofRatio? negative (digits * Nat.pow 10 exponent.toNat) 1
    else ofRatio? negative digits (Nat.pow 10 (-exponent).toNat)

/-- What follows the digits of a mantissa: nothing, or `e` and an integer literal. -/
def readExponent? : List Char → Option Int
  | [] => some 0
  | c :: cs => if c = 'e' ∨ c = 'E' then readInteger? cs else none

/-- Reads `digits`, `digits.digits`, `digits.` or `.digits`, each with an optional sign in
front and an optional exponent behind. -/
def read? (cs : List Char) : Option Double :=
  let (negative, body) := splitSign cs
  let whole := body.takeWhile Char.isDigit
  let (fraction, rest) := match body.dropWhile Char.isDigit with
    | '.' :: more => (more.takeWhile Char.isDigit, more.dropWhile Char.isDigit)
    | rest => ([], rest)
  let digits := whole ++ fraction
  if digits.isEmpty then none
  else match readExponent? rest with
    | none => none
    | some e => ofDecimal? negative (ofDigits digits) (e - fraction.length)

end Double
end TestScript.Number
