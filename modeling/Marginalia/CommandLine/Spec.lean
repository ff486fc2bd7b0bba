import Marginalia.Text.Basic

/-!
# Shape of a command line

A program has options of its own and commands; a command has arguments and
options. An option is written with one dash and a letter or with two dashes and
a name, and may take a value. An option whose name begins with `no-` turns off
what the option without that beginning turns on.
-/

namespace Marginalia
namespace CommandLine

structure Flag where
  letter : Option Char
  name : String
  /-- What its value is called, if it takes one. -/
  value : Option String
  description : String
  /-- The values that are allowed; any if there are none. -/
  choices : List String
deriving DecidableEq, Repr, Inhabited

namespace Flag

def switch (letter : Option Char) (name description : String) : Flag :=
  { letter, name, value := none, description, choices := [] }

def long (f : Flag) : String := "--" ++ f.name

def short (f : Flag) : Option String := f.letter.map fun c => String.ofList ['-', c]

def text (f : Flag) : String :=
  (match f.short with
    | some s => s ++ ", " ++ f.long
    | none => f.long) ++
  (match f.value with
    | some v => " <" ++ v ++ ">"
    | none => "")

/-- Whether an argument is an option in one of its forms. -/
def isWritten (f : Flag) (arg : String) : Bool := f.short == some arg || f.long == arg

end Flag

def helpFlag : Flag := .switch (some 'h') "help" "display help for command"

structure Argument where
  name : String
  isRequired : Bool
deriving DecidableEq, Repr, Inhabited

def Argument.text (a : Argument) : String :=
  if a.isRequired then "<" ++ a.name ++ ">" else "[" ++ a.name ++ "]"

structure Command where
  name : String
  arguments : List Argument
  description : String
  flags : List Flag
deriving DecidableEq, Repr, Inhabited

structure Program where
  name : String
  description : String
  flags : List Flag
  commands : List Command
deriving DecidableEq, Repr, Inhabited

namespace Program

def helpCommand : Command :=
  { name := "help"
    arguments := [{ name := "command", isRequired := false }]
    description := "display help for command"
    flags := [] }

def command? (p : Program) (name : String) : Option Command :=
  p.commands.find? fun c => c.name == name

end Program
end CommandLine
end Marginalia
