import TestScript.Diagnostic

/-!
# Compiling a script

The stages in a row: from a text to its tokens, and from a text to its script. The first stage
that fails gives the diagnostic.
-/

namespace TestScript

/-- The tokens of a text. -/
def tokenize (unit : Nat) (text : String) : Except Diagnostic (List Script.Token) := do
  let root ← (Document.load text).mapError Diagnostic.ofLoad
  (Script.tokensOf unit root).mapError Diagnostic.ofLayout

/-- The script of a text. -/
def compile (unit : Nat) (text : String) : Except Diagnostic Script := do
  let tokens ← tokenize unit text
  (Script.ofTokens tokens).mapError Diagnostic.ofGrammar

end TestScript
