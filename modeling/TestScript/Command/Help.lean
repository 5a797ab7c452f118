import TestScript.Command.Arguments

/-!
# Help

What the command says about itself: its version, how it and its commands are used, and what
their arguments and options are.
-/

namespace TestScript.Command

/-- What is shown as the version. -/
def version : String := "taf 0.0.1"

/-- A name in a list, filled up to a width, and what it means. -/
def entry (width : Nat) (name meaning : String) : String :=
  .join ["  ", name.pushn ' ' (width - name.length), "  ", meaning]

/-- A heading and the lines below it. -/
def block (heading : String) (lines : List String) : String :=
  String.intercalate "\n" (heading :: lines)

namespace Topic

/-- What a topic is about. -/
def about : Topic → String
  | .program => "Validate taf test scripts"
  | .verb .check => "Check scripts for grammar errors"
  | .verb .tokens => "Print the token stream of a script as JSON"
  | .verb .ast => "Print the syntax tree of a script as JSON"
  | .help => "Print this message or the help of the given subcommand(s)"

/-- How a command is used. -/
def usage : Topic → String
  | .program => "Usage: taf [OPTIONS] <COMMAND>"
  | .verb .check => "Usage: taf check [OPTIONS] <PATHS>..."
  | .verb .tokens => "Usage: taf tokens [OPTIONS] <FILE>"
  | .verb .ast => "Usage: taf ast [OPTIONS] <FILE>"
  | .help => "Usage: taf help [COMMAND]..."

/-- The commands, or the arguments of one. -/
def arguments : Topic → String
  | .program => block "Commands:"
    [entry 6 "check" (about (.verb .check)), entry 6 "tokens" (about (.verb .tokens)),
      entry 6 "ast" (about (.verb .ast)), entry 6 "help" (about .help)]
  | .verb .check => block "Arguments:"
    [entry 10 "<PATHS>..." "Script files or directories containing *.yaml / *.yml scripts"]
  | .verb .tokens | .verb .ast => block "Arguments:" [entry 6 "<FILE>" ""]
  | .help => block "Arguments:"
    [entry 12 "[COMMAND]..." "Print help for the subcommand(s)"]

/-- The options that stand on either side of a command. -/
def sharedOptions : List String :=
  [entry 21 "    --indent <INDENT>" "Indentation unit in spaces (overrides taf.toml)",
    entry 21 "    --no-color" "Disable colored output",
    entry 21 "-v, --verbose" "Log each stage to stderr",
    entry 21 "-h, --help" "Print help"]

/-- The options of a command. -/
def options : Topic → List String
  | .program => [block "Options:" (sharedOptions ++ [entry 21 "-V, --version" "Print version"])]
  | .verb _ => [block "Options:" sharedOptions]
  | .help => []

/-- The help about a topic. -/
def text (t : Topic) : String :=
  String.intercalate "\n\n" ([t.about, t.usage, t.arguments] ++ t.options)

end Topic
end TestScript.Command
