import TestScript.Toml.Line
import TestScript.Yaml.Scalar.Quoted

/-!
# Strings of TOML

A string stands between double quotes, where a backslash starts an escape, or between single
quotes, where it does not. Three quotes enclose a string of several lines: one or two quotes may
stand inside it, and up to two in front of the closing three.
-/

namespace TestScript.Toml

/-- The quote around strings with escapes. -/
def doubleQuote : Char := '\x22'

/-- The quote around strings without escapes. -/
def singleQuote : Char := '\x27'

/-- The character that an escape stands for, and what follows it. -/
def escape? : List Char → Option (Char × List Char)
  | 'b' :: cs => some ('\x08', cs)
  | 't' :: cs => some ('\t', cs)
  | 'n' :: cs => some ('\n', cs)
  | 'f' :: cs => some ('\x0c', cs)
  | 'r' :: cs => some ('\r', cs)
  | '\x22' :: cs => some ('\x22', cs)
  | '\\' :: cs => some ('\\', cs)
  | c :: cs => do
    let n ← if c = 'u' then some 4 else if c = 'U' then some 8 else none
    let digits := cs.take n
    guard (digits.length = n ∧ digits.all Yaml.isHexDigit)
    let ch ← Yaml.Quoted.charOfNat? (Yaml.Quoted.ofHex digits)
    return (ch, cs.drop n)
  | [] => none

/-- Reads a string up to its closing quote; `text` is what has been read, its last character
first. -/
def stringRest? (quote : Char) :
    (bound : List Char) → List Char → (text : List Char) → Option (List Char × List Char)
  | [], _, _ | _, [], _ => none
  | _ :: bound, c :: cs, text =>
    if c = quote then some (text.reverse, cs)
    else if quote = doubleQuote && c = '\\' then do
      let (ch, cs) ← escape? cs
      stringRest? quote bound cs (ch :: text)
    else if isPrintable c then stringRest? quote bound cs (c :: text)
    else none

/-- Reads a string on one line. -/
def string? : List Char → Option (List Char × List Char)
  | c :: cs => if c = doubleQuote ∨ c = singleQuote then stringRest? c cs cs [] else none
  | [] => none

/-- Steps over what a backslash may escape: a line end, with blanks in front of it, or a
character. -/
def skipEscaped? (cs : List Char) : Option (List Char) :=
  break? (skipBlanks cs) <|> (escape? cs).map Prod.snd

/-- Steps over one character of a string of several lines. -/
def skipCharacter? (quote : Char) : List Char → Option (List Char)
  | [] => none
  | c :: cs =>
    if quote = doubleQuote && c = '\\' then skipEscaped? cs
    else if isPrintable c then some cs
    else break? (c :: cs)

/-- Steps over a string of several lines, up to and with its closing quotes. -/
def skipLongString? (quote : Char) : (bound : List Char) → List Char → Option (List Char)
  | [], _ => none
  | _ :: bound, cs =>
    let quotes := (cs.takeWhile (· = quote)).length
    if 3 ≤ quotes then some (cs.drop (min 5 quotes))
    else do
      let cs ← skipCharacter? quote (cs.drop quotes)
      skipLongString? quote bound cs

/-- Steps over a string on one line or on several. -/
def skipString? (cs : List Char) : Option (List Char) :=
  let quotes := cs.take 3
  let rest := cs.drop 3
  if quotes = List.replicate 3 doubleQuote then skipLongString? doubleQuote rest rest
  else if quotes = List.replicate 3 singleQuote then skipLongString? singleQuote rest rest
  else (string? cs).map Prod.snd

end TestScript.Toml
