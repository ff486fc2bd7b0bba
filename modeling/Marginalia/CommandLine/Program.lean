import Marginalia.Association
import Marginalia.CommandLine.Parse

/-!
# The command line of this program

Four commands: annotate a source, list its comments, list the spans of its
nodes, write a settings file.
-/

namespace Marginalia
namespace CommandLine

/-- An option with a value of any kind. -/
def valued (letter : Option Char) (name value description : String) : Flag :=
  { letter, name, value := some value, description, choices := [] }

/-- The options that choose the kinds of comments. -/
def extractionFlags : List Flag :=
  [.switch none "line-comments" "Extract // comments",
    .switch none "no-line-comments" "Skip // comments",
    .switch none "block-comments" "Extract /* */ comments",
    .switch none "no-block-comments" "Skip /* */ comments"]

def jsonFlag : Flag := .switch none "json" "Output as JSON"

def input : Argument := { name := "input", isRequired := true }

def policyFlag : Flag :=
  { letter := some 'p'
    name := "policy"
    value := some "policy"
    description := "Association policy"
    choices := Association.Policy.all.map Association.Policy.name }

inductive Task where
  | annotate
  | comments
  | spans
  | init
deriving DecidableEq, Repr

namespace Task

def command : Task → Command
  | .annotate =>
    { name := "annotate"
      arguments := [input, { name := "output", isRequired := false }]
      description := "Annotate a Rust file and print the JSON tree, or write it to <output>"
      flags := [policyFlag, .switch none "compact" "Omit spans from the output",
        .switch none "pretty" "Indent the output",
        .switch none "no-pretty" "Write the output on one line"] ++ extractionFlags }
  | .comments =>
    { name := "comments"
      arguments := [input]
      description := "List the comments found in a file"
      flags := jsonFlag :: extractionFlags }
  | .spans =>
    { name := "spans"
      arguments := [input]
      description := "List the declaration and body spans of a Rust file"
      flags := [jsonFlag] }
  | .init =>
    { name := "init"
      arguments := []
      description := "Write a default config file"
      flags := [.switch (some 'f') "force" "Overwrite an existing config file"] }

def all : List Task := [.annotate, .comments, .spans, .init]

def ofCommand? (c : Command) : Option Task := all.find? fun t => t.command == c

end Task

def program : Program :=
  { name := "syntree-comments"
    description := "Attach source comments to the Rust syntax tree and emit it as JSON"
    flags := [.switch (some 'v') versionName "Show version number",
      valued (some 'c') "config" "path" "Config file (default: ./syntree-comments.json)",
      valued none "log-dir" "dir" "Write logs to files in this directory",
      .switch none "verbose" "Show debug logging"]
    commands := Task.all.map Task.command }

/-- The last value given for an option. -/
def valueOf? (name : String) (given : List Given) : Option String :=
  (given.reverse.find? fun g => g.flag.name == name).bind Given.value

/-- Whether an option is on: the last of it and its opposite decides, and neither may be given. -/
def switchOf? (name : String) (given : List Given) : Option Bool :=
  (given.reverse.find? fun g => g.flag.name == name || g.flag.name == "no-" ++ name).map fun g =>
    g.flag.name == name

def isGiven (name : String) (given : List Given) : Bool := given.any fun g => g.flag.name == name

end CommandLine
end Marginalia
