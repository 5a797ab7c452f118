import TestScript.Text.Excerpt
import TestScript.Document.Load
import TestScript.Script.Layout
import TestScript.Script.Grammar

/-!
# Diagnostics

A script is read in three stages: its text is loaded, the document is flattened into tokens, and
the tokens are parsed. A diagnostic is the error of any stage, in words, with its place and
perhaps the file that it is about.
-/

namespace TestScript

/-- A stage of reading a script. -/
inductive Stage where
  | load
  | layout
  | grammar
  deriving DecidableEq, Repr

/-- How a stage is called in messages. -/
def Stage.word : Stage → String
  | .load => "load"
  | .layout => "lex"
  | .grammar => "parse"

/-- An error of any stage. -/
structure Diagnostic where
  stage : Stage
  position : Position
  message : String
  path : Option String := none
  deriving DecidableEq, Repr

namespace Diagnostic

/-- The error of a text that is no document. -/
def ofLoad (e : Document.LoadError) : Diagnostic :=
  ⟨.load, e.position, e.message, none⟩

/-- The error of a document that is not laid out like a script. -/
def ofLayout (e : Script.LayoutError) : Diagnostic :=
  ⟨.layout, e.position, e.message, none⟩

/-- The error of tokens that are no script. -/
def ofGrammar (e : Script.GrammarError) : Diagnostic :=
  ⟨.grammar, e.position, e.message, none⟩

/-- Says which file an error is about. -/
def withPath (d : Diagnostic) (path : String) : Diagnostic :=
  { d with path := some path }

/-- The error with the name of its stage. -/
def label (d : Diagnostic) : String :=
  d.stage.word ++ " error, " ++ d.message

/-- The error in one line. -/
def display (d : Diagnostic) : String :=
  (match d.path with
    | some path => path ++ " "
    | none => "") ++ d.position.describe ++ ": " ++ d.label

/-- The error with an excerpt of the text that it is about. -/
def render (d : Diagnostic) (source : String) : String :=
  (match d.path with
    | some path => path ++ "\n"
    | none => "") ++ Text.excerpt d.label source d.position

end Diagnostic
end TestScript
