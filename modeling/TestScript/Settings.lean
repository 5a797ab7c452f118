import TestScript.FileTree
import TestScript.Script.Layout
import TestScript.Toml.Document

/-!
# Settings

How scripts are read and how results are shown. Settings come from a file of a directory, the
first of two that is there, and from the command line, which wins.
-/

namespace TestScript

/-- How scripts are read and how results are shown. -/
structure Settings where
  indentUnit : Nat := Script.defaultUnit
  colored : Bool := true
  verbose : Bool := false
  deriving DecidableEq, Repr

/-- Why there are no settings. -/
inductive SettingsError where
  | unreadable (path : String) (fault : ReadFault)
  | invalid (path : String)
  | zeroUnit (path : String)
  deriving DecidableEq, Repr

/-- The words in which an error is reported. -/
def SettingsError.message : SettingsError → String
  | .unreadable path _ => .join ["Failed to read config from ", path]
  | .invalid path => .join ["Invalid config file ", path]
  | .zeroUnit path => .join ["indent_unit in ", path, " must be at least 1"]

namespace Settings

/-- The names of the files that settings are read from, the preferred one first. -/
def fileNames : List String := ["taf.toml", ".tafrc.toml"]

/-- A setting that is a number; the default if it is missing, nothing if it is something else. -/
def natural? (d : Toml.Table) (name : String) (default : Nat) : Option Nat :=
  match d.lookup name with
  | none => some default
  | some (.value (.integer n)) => if 0 ≤ n then some n.toNat else none
  | some _ => none

/-- A setting that is a switch; the default if it is missing, nothing if it is something else. -/
def switch? (d : Toml.Table) (name : String) (default : Bool) : Option Bool :=
  match d.lookup name with
  | none => some default
  | some (.value (.boolean b)) => some b
  | some _ => none

/-- The settings that a text gives. -/
def ofText? (text : String) : Option Settings := do
  let d ← Toml.Table.ofText? text
  let s : Settings := {}
  return {
    indentUnit := ← natural? d "indent_unit" s.indentUnit
    colored := ← switch? d "colored" s.colored
    verbose := ← switch? d "verbose" s.verbose }

/-- The settings that the file at a path gives. -/
def ofFile (files : FileTree) (path : String) : Except SettingsError Settings :=
  match files.read path with
  | .error fault => .error (.unreadable path fault)
  | .ok text =>
    match ofText? text with
    | none => .error (.invalid path)
    | some s => if s.indentUnit = 0 then .error (.zeroUnit path) else .ok s

/-- The settings of a directory; without a file for them, the defaults. -/
def load (files : FileTree) (dir : String) : Except SettingsError Settings :=
  match (fileNames.map (joinPath dir)).find? files.has with
  | some path => ofFile files path
  | none => .ok {}

/-- The settings with what the command line says about them. -/
def override (s : Settings) (indent : Option Nat) (noColor verbose : Bool) : Settings :=
  { indentUnit := indent.getD s.indentUnit
    colored := s.colored && !noColor
    verbose := s.verbose || verbose }

end Settings
end TestScript
