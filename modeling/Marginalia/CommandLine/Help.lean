import Marginalia.CommandLine.Spec
import Marginalia.Text.Units

/-!
# Help texts

A help text has the usage, the description, and lists of options and commands.
A list has its terms in one column and their descriptions in the next; a
description that is too wide goes on in its column on the next line.
-/

namespace Marginalia
namespace CommandLine

namespace Help

def lineWidth : Nat := 80

/-- The blanks before a list item, and between a term and its description. -/
def gap : Nat := 2

def blanks (n : Nat) : String := String.ofList (List.replicate n ' ')

/-- Adds a word to lines that are kept with the last one first. A line stays narrower than the
column. -/
def addWord (column : Nat) (lines : List String) (word : String) : List String :=
  match lines with
  | [] => [word]
  | last :: rest =>
    if Text.width last.toList + 1 + Text.width word.toList < column then
      (last ++ " " ++ word) :: rest
    else word :: last :: rest

/-- The words of a text on lines that fit in a column. -/
def wrap (column : Nat) (text : String) : List String :=
  ((Text.split ' ' text).foldl (addWord column) []).reverse

def item (termWidth : Nat) (x : String × String) : String :=
  let margin := termWidth + gap
  let description := wrap (lineWidth - gap - margin) x.2
  blanks gap ++ Text.padEnd margin x.1 ++
    Text.join ("\n" ++ blanks (gap + margin)) description

def widest (items : List (String × String)) : Nat :=
  items.foldl (fun n x => max n (Text.width x.1.toList)) 0

def listing (termWidth : Nat) (heading : String) (items : List (String × String)) : String :=
  if items.isEmpty then ""
  else "\n" ++ heading ++ ":\n" ++ Text.join "\n" (items.map (item termWidth)) ++ "\n"

/-- The description of an option with the values it allows. -/
def flagDescription (f : Flag) : String :=
  if f.choices.isEmpty then f.description
  else
    f.description ++ " (choices: " ++
      Text.join ", " (f.choices.map fun c => "\"" ++ c ++ "\"") ++ ")"

def flagItems (flags : List Flag) : List (String × String) :=
  (flags ++ [helpFlag]).map fun f => (f.text, flagDescription f)

def commandTerm (c : Command) : String :=
  Text.join " " ([c.name] ++ (if c.flags.isEmpty then [] else ["[options]"]) ++
    c.arguments.map Argument.text)

def text (usage description : String) (flags commands : List (String × String)) : String :=
  let termWidth := widest (flags ++ commands)
  "Usage: " ++ usage ++ "\n\n" ++ description ++ "\n" ++ listing termWidth "Options" flags ++
    listing termWidth "Commands" commands

end Help

def Program.help (p : Program) : String :=
  Help.text (p.name ++ " [options] [command]") p.description (Help.flagItems p.flags)
    ((p.commands ++ [Program.helpCommand]).map fun c => (Help.commandTerm c, c.description))

def Command.help (p : Program) (c : Command) : String :=
  Help.text (Text.join " " ([p.name, c.name, "[options]"] ++ c.arguments.map Argument.text))
    c.description (Help.flagItems c.flags) []

end CommandLine
end Marginalia
