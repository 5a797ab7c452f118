import TestScript.Command.Help
import TestScript.Command.Paint
import TestScript.Compile
import TestScript.Script.Payload
import TestScript.Settings

/-!
# Running a command

`taf check` says of each script whether it is right, `taf tokens` and `taf ast` show the tokens
and the tree of one. A run looks at a file tree and has an outcome: two texts and an exit code.

The lines of a log are no part of an outcome. That it should be verbose is read from the arguments
and the settings and carried along, but it only chooses which lines are logged, and so it changes
nothing here. Of the text about arguments that are a misuse, only the line with the usage of the
program is part of an outcome.
-/

namespace TestScript

/-- The diagnostic of a script that cannot be read. -/
def Diagnostic.ofRead (fault : ReadFault) : Diagnostic :=
  ⟨.load, {}, "cannot read script: " ++ fault.message, none⟩

/-- The script in the file at a path. -/
def compileFile (files : FileTree) (unit : Nat) (path : String) : Except Diagnostic Script :=
  match files.read path with
  | .error fault => .error ((Diagnostic.ofRead fault).withPath path)
  | .ok text => (compile unit text).mapError (·.withPath path)

namespace Command

/-- The outcome of a run, without what is logged. -/
structure Outcome where
  code : Nat
  out : String
  err : String
  deriving DecidableEq, Repr

/-- A text as a line. -/
def line (s : String) : String :=
  s ++ "\n"

/-- An outcome that is the report of one error, and of what caused it if that is known. -/
def failure (message : String) (cause : Option String) : Outcome :=
  ⟨1, "", line ("Error: " ++ message ++
    (match cause with
      | some cause => "\n\nCaused by:\n    " ++ cause
      | none => ""))⟩

/-! ### Reports -/

/-- What may help with an error. -/
def help : Stage → String
  | .load => "The file is not a well-formed YAML document"
  | .layout => "Check indentation and the shape of the value at this key"
  | .grammar => "Sections must appear once each, in the order the grammar defines"

/-- The place of an error whose text cannot be shown. -/
def location (colors : Bool) (d : Diagnostic) : String :=
  "  " ++ Paint.boldBlue.apply colors "-->" ++ " " ++
    (match d.path with
      | some path => path ++ " "
      | none => "") ++ d.position.describe

/-- The report of an error, with an excerpt of its text if that is known. -/
def report (colors : Bool) (d : Diagnostic) (source : Option String) : String :=
  line (Paint.boldRed.apply colors (d.stage.word ++ " error:") ++ " " ++
    Paint.bold.apply colors d.message) ++
  line (match source with
    | some source => d.render source
    | none => location colors d) ++
  line "" ++
  line (Paint.boldCyan.apply colors "help:" ++ " " ++ help d.stage)

/-! ### Tasks -/

/-- Whether a file in a directory is a script. -/
def isScriptName (name : String) : Bool :=
  fileExtension? name = some "yaml" || fileExtension? name = some "yml"

/-- The files that a path stands for: the scripts right in a directory, or the path itself. -/
def expand (files : FileTree) (path : String) : List String :=
  if files.isDirectory path then
    (((files.filesIn path).filter isScriptName).map (joinPath path)).filter files.isFile
  else [path]

/-- The verdict on one file: a line for a script that is right, or the report of its error. -/
def verdict (files : FileTree) (unit : Nat) (colors : Bool) (path : String) :
    Except String String :=
  match compileFile files unit path with
  | .ok _ => .ok (line (Paint.boldGreen.apply colors "ok" ++ " " ++ path))
  | .error d => .error (report colors d (files.read path).toOption)

/-- The texts of one kind among verdicts, one behind the other. -/
def collect (pick : Except String String → Option String)
    (verdicts : List (Except String String)) : String :=
  String.join (verdicts.filterMap pick)

/-- The line of a verdict that a script is right. -/
def passed : Except String String → Option String
  | .ok s => some s
  | .error _ => none

/-- The report of a verdict that a script is wrong. -/
def failed : Except String String → Option String
  | .ok _ => none
  | .error s => some s

/-- Checks scripts. -/
def check (files : FileTree) (unit : Nat) (colors : Bool) (paths : List String) : Outcome :=
  let verdicts := (paths.flatMap (expand files)).map (verdict files unit colors)
  let bad := (verdicts.filterMap failed).length
  if verdicts.isEmpty then failure "No *.yaml or *.yml scripts found" none
  else
    let summary := Paint.boldRed.apply colors
      (toString bad ++ " of " ++ toString verdicts.length ++ " scripts failed")
    ⟨if bad = 0 then 0 else 1, collect passed verdicts,
      collect failed verdicts ++ if bad = 0 then "" else line summary⟩

/-- Shows what a stage makes of the text at a path. -/
def dump {α : Type} (files : FileTree) (colors : Bool) (path : String)
    (stage : String → Except Diagnostic α) (toPayload : α → Payload) : Outcome :=
  match files.read path with
  | .error fault => failure ("Failed to read script " ++ path) (some fault.message)
  | .ok text =>
    match stage text with
    | .ok a => ⟨0, line (toPayload a).pretty, ""⟩
    | .error d => ⟨1, "", report colors (d.withPath path) (some text)⟩

/-- Does a task. -/
def perform (files : FileTree) (unit : Nat) (colors : Bool) : Task → Outcome
  | .check paths => check files unit colors paths
  | .tokens path =>
    dump files colors path (tokenize unit) fun ts => .list (ts.map Script.Token.toPayload)
  | .ast path => dump files colors path (compile unit) Script.toPayload

/-! ### The command line -/

/-- Does a task under the settings of a directory and the options. Colours are used if they
can be shown and the settings do not forbid them. -/
def runTask (files : FileTree) (dir : String) (colors : Bool) (o : Options) (task : Task) :
    Outcome :=
  match Settings.load files dir with
  | .error e =>
    failure e.message (match e with
      | .unreadable _ fault => some fault.message
      | _ => none)
  | .ok settings =>
    let settings := settings.override o.indent o.noColor o.verbose
    if settings.indentUnit = 0 then failure "--indent must be at least 1" none
    else perform files settings.indentUnit (colors && settings.colored) task

/-- Runs the command with arguments in a directory. What is said about a misuse in front of the
usage is left out. -/
def run (files : FileTree) (dir : String) (colors : Bool) (args : List String) : Outcome :=
  match Arguments.parse args with
  | .run o task => runTask files dir colors o task
  | .version => ⟨0, line version, ""⟩
  | .help topic => ⟨0, line topic.text, ""⟩
  | .misuse => ⟨2, "", line Topic.program.usage⟩

end Command
end TestScript
