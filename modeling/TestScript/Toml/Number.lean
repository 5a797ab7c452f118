import TestScript.Number.Double
import TestScript.Yaml.Cursor

/-!
# Numbers of TOML

Integers are written in base 10 with an optional sign, or in base 16, 8 or 2, and fit a 64-bit
word with a sign. Other numbers have a fraction or an exponent. Single low lines may stand
between digits.
-/

namespace TestScript.Toml

open Number

/-- Digits with single low lines between them. -/
def isGrouped (isDigit : Char → Bool) : List Char → Bool
  | [] => false
  | [c] => isDigit c
  | c :: '_' :: cs => isDigit c && isGrouped isDigit cs
  | c :: cs => isDigit c && isGrouped isDigit cs

/-- A text without its low lines. -/
def ungroup (cs : List Char) : List Char :=
  cs.filter (· ≠ '_')

/-- Decimal digits without needless zeros in front. -/
def isDecimal (cs : List Char) : Bool :=
  isGrouped Char.isDigit cs && (cs.length = 1 || cs.head? ≠ some '0')

/-- The number that digits in a base denote. -/
def ofBase (base : Nat) (cs : List Char) : Nat :=
  (ungroup cs).foldl (fun n c => base * n + Yaml.hexValue c) 0

/-- An integer, if a 64-bit word with a sign holds it. -/
def inWord? (n : Int) : Option Int :=
  if -Int.pow 2 63 ≤ n ∧ n < Int.pow 2 63 then some n else none

/-- Reads an integer. -/
def integer? : List Char → Option Int
  | '0' :: 'x' :: cs =>
    if isGrouped Yaml.isHexDigit cs then inWord? (ofBase 16 cs) else none
  | '0' :: 'o' :: cs =>
    if isGrouped (fun c => '0' ≤ c && c ≤ '7') cs then inWord? (ofBase 8 cs) else none
  | '0' :: 'b' :: cs =>
    if isGrouped (fun c => c = '0' || c = '1') cs then inWord? (ofBase 2 cs) else none
  | cs =>
    let (negative, digits) := splitSign cs
    if isDecimal digits then
      inWord? (if negative then -(ofBase 10 digits : Int) else ofBase 10 digits)
    else none

/-- Whether a text is an exponent, or nothing. -/
def isExponent : List Char → Bool
  | [] => true
  | c :: cs => (c = 'e' || c = 'E') && isGrouped Char.isDigit (splitSign cs).2

/-- Whether a text without a sign is a number with a fraction or an exponent. -/
def isFractional (cs : List Char) : Bool :=
  let isPart := fun c : Char => c.isDigit || c = '_'
  let whole := cs.takeWhile isPart
  isDecimal whole && match cs.drop whole.length with
    | '.' :: more =>
      let fraction := more.takeWhile isPart
      isGrouped Char.isDigit fraction && isExponent (more.drop fraction.length)
    | rest => !rest.isEmpty && isExponent rest

/-- Whether a text is a number that is no integer. One that rounds past the largest number is
refused, but one below the smallest is not. -/
def isFloat (cs : List Char) : Bool :=
  let (negative, body) := splitSign cs
  body = ['i', 'n', 'f'] || body = ['n', 'a', 'n'] ||
    isFractional body && (negative || (Double.read? (ungroup body)).isSome)

end TestScript.Toml
