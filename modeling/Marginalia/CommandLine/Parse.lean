import Marginalia.CommandLine.Spec
import Marginalia.CommandLine.Suggestion

/-!
# Reading a command line

The options of the program are taken wherever they stand; the first argument
that is left names the command. Options that the program does not know, and all
that follows them, are left to the command. Two dashes end the options.
-/

namespace Marginalia
namespace CommandLine

structure Given where
  flag : Flag
  value : Option String
deriving DecidableEq, Repr

/-- Why a command line cannot be read. -/
inductive Misuse where
  | unknownCommand (name : String) (suggestions : List String)
  | unknownOption (arg : String) (suggestions : List String)
  | missingArgument (name : String)
  | missingValue (flag : Flag)
  | wrongChoice (flag : Flag) (value : String)
deriving DecidableEq, Repr

def Misuse.message : Misuse → String
  | .unknownCommand name suggestions =>
    "error: unknown command '" ++ name ++ "'" ++ didYouMean suggestions
  | .unknownOption arg suggestions =>
    "error: unknown option '" ++ arg ++ "'" ++ didYouMean suggestions
  | .missingArgument name => "error: missing required argument '" ++ name ++ "'"
  | .missingValue flag => "error: option '" ++ flag.text ++ "' argument missing"
  | .wrongChoice flag value =>
    "error: option '" ++ flag.text ++ "' argument '" ++ value ++
      "' is invalid. Allowed choices are " ++ Text.join ", " flag.choices ++ "."

/-- What ends the reading of options at once. -/
inductive Interruption where
  | version
  | misuse (m : Misuse)
deriving DecidableEq, Repr

/-- The arguments sorted: the options that were known, what came before the first unknown option,
and that option with what came after it. -/
structure Sorted where
  given : List Given
  operands : List String
  unknown : List String
deriving DecidableEq, Repr

namespace Sorted

def empty : Sorted := { given := [], operands := [], unknown := [] }

def isDiverted (s : Sorted) : Bool := !s.unknown.isEmpty

def push (s : Sorted) (arg : String) : Sorted :=
  if s.isDiverted then { s with unknown := s.unknown ++ [arg] }
  else { s with operands := s.operands ++ [arg] }

def divert (s : Sorted) (arg : String) : Sorted := { s with unknown := s.unknown ++ [arg] }

/-- Adds the arguments after two dashes. The dashes stay where the arguments are read again. -/
def finish (s : Sorted) (rest : List String) : Sorted :=
  if s.isDiverted then { s with unknown := s.unknown ++ "--" :: rest }
  else { s with operands := s.operands ++ rest }

end Sorted

def versionName : String := "version"

def give (s : Sorted) (flag : Flag) (value : Option String) : Except Interruption Sorted :=
  if flag.name = versionName then .error .version
  else
    match value with
    | some v =>
      if !flag.choices.isEmpty && !flag.choices.contains v then
        .error (.misuse (.wrongChoice flag v))
      else .ok { s with given := s.given ++ [{ flag, value }] }
    | none => .ok { s with given := s.given ++ [{ flag, value }] }

inductive Reading where
  /-- Two dashes. -/
  | ending
  /-- An option that stands by itself. -/
  | whole (flag : Flag)
  /-- An option with its value in the same argument. -/
  | joined (flag : Flag) (value : String)
  /-- A letter option followed by more letters. -/
  | grouped (flag : Flag) (letters : List Char)
  | unknown
  | operand
deriving DecidableEq, Repr

def find? (flags : List Flag) (arg : String) : Option Flag :=
  flags.find? fun f => f.isWritten arg

/-- The name and the value of an argument of the form `--name=value`. -/
def splitAtEquals? (cs : List Char) : Option (List Char × List Char) :=
  match cs with
  | '-' :: '-' :: rest =>
    let name := rest.takeWhile (· ≠ '=')
    match rest.dropWhile (· ≠ '=') with
    | _ :: value => if name.isEmpty then none else some ('-' :: '-' :: name, value)
    | [] => none
  | _ => none

/-- How an argument with a value behind an equals sign is to be read. -/
def readingOfPair? (flags : List Flag) (cs : List Char) : Option Reading :=
  (splitAtEquals? cs).bind fun pair =>
    ((find? flags (String.ofList pair.1)).filter fun f => f.value.isSome).map fun f =>
      .joined f (String.ofList pair.2)

/-- How an argument of one dash and several letters is to be read. -/
def readingOfGroup? (flags : List Flag) (cs : List Char) : Option Reading :=
  match cs with
  | '-' :: c :: letter :: letters =>
    if c = '-' then none
    else
      (find? flags (String.ofList ['-', c])).map fun f =>
        if f.value.isSome then .joined f (String.ofList (letter :: letters))
        else .grouped f (letter :: letters)
  | _ => none

def readingOf (flags : List Flag) (arg : String) : Reading :=
  if arg = "--" then .ending
  else
    match arg.toList with
    | '-' :: c :: cs =>
      match find? flags arg with
      | some f => .whole f
      | none =>
        ((readingOfGroup? flags ('-' :: c :: cs)).or
          (readingOfPair? flags ('-' :: c :: cs))).getD .unknown
    | _ => .operand

def regrouped (letters : List Char) : String := String.ofList ('-' :: letters)

/-- Sorts arguments. The number of steps is bounded by the characters of the arguments, because a
group of letters is read one letter at a time. -/
def sortFrom (flags : List Flag) : Nat → Sorted → List String → Except Interruption Sorted
  | _, s, [] => .ok s
  | 0, s, _ :: _ => .ok s
  | n + 1, s, arg :: rest =>
    match readingOf flags arg with
    | .ending => .ok (s.finish rest)
    | .operand => sortFrom flags n (s.push arg) rest
    | .unknown => sortFrom flags n (s.divert arg) rest
    | .joined f v => do sortFrom flags n (← give s f (some v)) rest
    | .grouped f letters => do sortFrom flags n (← give s f none) (regrouped letters :: rest)
    | .whole f =>
      if f.value.isNone then do
        sortFrom flags n (← give s f none) rest
      else
        match rest with
        | [] => .error (.misuse (.missingValue f))
        | v :: rest => do sortFrom flags n (← give s f (some v)) rest

/-- The characters of some arguments, and one for each argument. -/
def weight : List String → Nat
  | [] => 0
  | arg :: rest => arg.length + 1 + weight rest

def sort (flags : List Flag) (args : List String) : Except Interruption Sorted :=
  sortFrom flags (weight args) .empty args

inductive Request where
  /-- A command with the options of the program, its own options and its arguments. -/
  | run (command : Command) (globals locals : List Given) (arguments : List String)
  | version
  /-- Help on a command or on the program. Help that was not asked for is a complaint. -/
  | help (command : Option Command) (isAsked : Bool)
  | misuse (m : Misuse)
deriving DecidableEq, Repr

def Request.ofInterruption : Interruption → Request
  | .version => .version
  | .misuse m => .misuse m

def longForms (flags : List Flag) : List String := (flags ++ [helpFlag]).map Flag.long

/-- The misuse of an unknown option; only long forms have suggestions. -/
def unknownOption (known : List String) (arg : String) : Misuse :=
  .unknownOption arg (if Text.startsWith "--" arg then suggestions arg known else [])

def asksForHelp (args : List String) : Bool := args.any helpFlag.isWritten

def missing? : List Argument → List String → Option String
  | [], _ => none
  | a :: as, [] => if a.isRequired then some a.name else missing? as []
  | _ :: as, _ :: vs => missing? as vs

def requestOf (p : Program) (c : Command) (globals : List Given) (operands unknown : List String) :
    Request :=
  match sort c.flags unknown with
  | .error i => .ofInterruption i
  | .ok s =>
    let arguments := operands ++ s.operands
    if asksForHelp s.unknown then .help (some c) true
    else
      match s.unknown with
      | arg :: _ => .misuse (unknownOption (longForms c.flags ++ longForms p.flags) arg)
      | [] =>
        match missing? c.arguments arguments with
        | some name => .misuse (.missingArgument name)
        | none => .run c globals s.given arguments

def helpRequest (p : Program) : List String → Request
  | [] => .help none true
  | name :: _ =>
    if name.isEmpty then .help none true
    else
      match p.command? name with
      | some c => .help (some c) true
      | none => .help none false

def request (p : Program) (args : List String) : Request :=
  match sort p.flags args with
  | .error i => .ofInterruption i
  | .ok s =>
    match s.operands with
    | name :: operands =>
      match p.command? name with
      | some c => requestOf p c s.given operands s.unknown
      | none =>
        if name = Program.helpCommand.name then helpRequest p operands
        else if asksForHelp s.unknown then .help none true
        else
          .misuse (.unknownCommand name
            (suggestions name (p.commands.map Command.name ++ [Program.helpCommand.name])))
    | [] =>
      match s.unknown with
      | [] => .help none false
      | arg :: rest =>
        if asksForHelp (arg :: rest) then .help none true
        else .misuse (unknownOption (longForms p.flags) arg)

end CommandLine
end Marginalia
