import TestScript.Number.Integer

/-!
# Arguments

The arguments are one command with its paths, and options before or after it. An option may be
given once on either side of the command; the one behind it counts. `--` makes everything behind
it a path.
-/

namespace TestScript.Command

/-- What is to be done. -/
inductive Task where
  /-- Say of each script whether it is right. -/
  | check (paths : List String)
  /-- Show the tokens of a script. -/
  | tokens (path : String)
  /-- Show the tree of a script. -/
  | ast (path : String)
  deriving DecidableEq, Repr

/-- The paths of a task. -/
def Task.paths : Task → List String
  | .check paths => paths
  | .tokens path | .ast path => [path]

/-- The options that are given. -/
structure Options where
  indent : Option Nat := none
  noColor : Bool := false
  verbose : Bool := false
  deriving DecidableEq, Repr

/-- Sets the indent unit, a number below `2 ^ 64`, once. -/
def Options.setIndent? (o : Options) (text : String) : Option Options :=
  match o.indent, Number.readNatBelow? (Nat.pow 2 64) text.toList with
  | none, some n => some { o with indent := some n }
  | _, _ => none

/-- The options given in front of the command, together with those behind it. -/
def Options.merge (front behind : Options) : Options :=
  { indent := behind.indent.or front.indent
    noColor := front.noColor || behind.noColor
    verbose := front.verbose || behind.verbose }

/-- The commands that do a task. -/
inductive Verb where
  | check
  | tokens
  | ast
  deriving DecidableEq, Repr

/-- The command with a name. -/
def Verb.ofName? (name : String) : Option Verb :=
  if name = "check" then some .check
  else if name = "tokens" then some .tokens
  else if name = "ast" then some .ast
  else none

/-- The task of a command with its paths: `check` takes one path or more, the others one. -/
def Verb.task? (v : Verb) (paths : List String) : Option Task :=
  if paths.any String.isEmpty then none
  else match v, paths with
    | .check, _ :: _ => some (.check paths)
    | .tokens, [path] => some (.tokens path)
    | .ast, [path] => some (.ast path)
    | _, _ => none

/-- What help is about. -/
inductive Topic where
  | program
  | verb (v : Verb)
  | help
  deriving DecidableEq, Repr

/-- The topic that a list of command names asks for. -/
def Topic.ofNames? : List String → Option Topic
  | [] => some .program
  | [name] => if name = "help" then some .help else (Verb.ofName? name).map .verb
  | _ => none

/-- What the arguments ask for. -/
inductive Request where
  | run (options : Options) (task : Task)
  | version
  | help (topic : Topic)
  | misuse
  deriving DecidableEq, Repr

/-- The paths that a request is about. -/
def Request.paths : Request → List String
  | .run _ task => task.paths
  | .version | .help _ | .misuse => []

namespace Arguments

/-- What an argument that begins with a hyphen does. -/
inductive Effect where
  /-- It sets an option. -/
  | set (o : Options)
  /-- The next argument is the indent unit. -/
  | indentNext
  | version
  | help
  | misuse

/-- Sets a switch that has not been set before. -/
def switch (before : Bool) (o : Options) : Effect :=
  if before then .misuse else .set o

/-- What a long option does. The version is shown only in front of the command. -/
def long (front : Bool) (o : Options) (text : String) : Effect :=
  match "--indent=".toList.isPrefixOf? text.toList with
  | some value =>
    match o.setIndent? (String.ofList value) with
    | some o => .set o
    | none => .misuse
  | none =>
    if text = "--indent" then .indentNext
    else if text = "--no-color" then switch o.noColor { o with noColor := true }
    else if text = "--verbose" then switch o.verbose { o with verbose := true }
    else if text = "--help" then .help
    else if text = "--version" && front then .version
    else .misuse

/-- What the letters of a short option do. -/
def short (front : Bool) (o : Options) : List Char → Effect
  | [] => .set o
  | c :: cs =>
    if c = 'v' then
      if o.verbose then .misuse else short front { o with verbose := true } cs
    else if c = 'h' then .help
    else if c = 'V' && front then .version
    else .misuse

/-- What an argument does if it is an option. A single hyphen is none. -/
def effect? (front : Bool) (o : Options) (text : String) : Option Effect :=
  match text.toList with
  | '-' :: '-' :: _ => some (long front o text)
  | '-' :: c :: cs => some (short front o (c :: cs))
  | _ => none

/-- Reads the value of the option for the indent unit. Nothing that begins with a hyphen is
one. -/
def indentValue? (o : Options) (text : String) : Option Options :=
  if text.toList.head? = some '-' then none else o.setIndent? text

/-- Asks for the task of a command. -/
def request (v : Verb) (o : Options) (paths : List String) : Request :=
  match v.task? paths with
  | some task => .run o task
  | none => .misuse

/-- Reads the options and paths behind a command; `paths` are those before, last one first. -/
def behind (v : Verb) (front : Options) :
    List String → Options → (paths : List String) → Request
  | [], o, paths => request v (front.merge o) paths.reverse
  | arg :: args, o, paths =>
    if arg = "--" then request v (front.merge o) (paths.reverse ++ args)
    else match effect? false o arg with
      | none =>
        if v ≠ .check ∧ paths ≠ [] then .misuse else behind v front args o (arg :: paths)
      | some (.set o) => behind v front args o paths
      | some .indentNext =>
        match args with
        | [] => .misuse
        | value :: args =>
          match indentValue? o value with
          | some o => behind v front args o paths
          | none => .misuse
      | some .help => .help (.verb v)
      | some .version => .version
      | some .misuse => .misuse

/-- Asks for help about the commands that are named. -/
def help (names : List String) : Request :=
  match Topic.ofNames? names with
  | some topic => .help topic
  | none => .misuse

/-- Reads the options in front of the command, and all that follows. -/
def front : List String → Options → Request
  | [], _ => .misuse
  | arg :: args, o =>
    if arg = "--" then .misuse
    else match effect? true o arg with
      | none =>
        match Verb.ofName? arg with
        | some v => behind v o args {} []
        | none => if arg = "help" then help args else .misuse
      | some (.set o) => front args o
      | some .indentNext =>
        match args with
        | [] => .misuse
        | value :: args =>
          match indentValue? o value with
          | some o => front args o
          | none => .misuse
      | some .help => .help .program
      | some .version => .version
      | some .misuse => .misuse

/-- What a list of arguments asks for. -/
def parse (args : List String) : Request :=
  front args {}

end Arguments
end TestScript.Command
