import Marginalia.CommandLine.Help
import Marginalia.CommandLine.Program
import Marginalia.CommandLine.Style
import Marginalia.Outline.Encode
import Marginalia.Session.Settings
import Marginalia.Session.Source

/-!
# Running the commands

Results go to the output console, and messages to the error console. A fault
ends a command, is reported and makes the run fail.
-/

namespace Marginalia
namespace CommandLine

open Session

/-- The choices among the options of a command that come before the settings of a file. -/
def overridesOf (given : List Given) : Settings.Overrides :=
  { policy := valueOf? "policy" given
    lineComments := switchOf? "line-comments" given
    blockComments := switchOf? "block-comments" given
    compact := switchOf? "compact" given
    pretty := switchOf? "pretty" given }

def readSource (path : String) : Session String := do
  let resolved := (← read).place.resolve path
  let disk := (← get).disk
  if !disk.hasPath resolved then
    fail (.fileNotFound resolved)
  match disk.read resolved with
  | .ok source => pure source
  | .error e => throw (.disk e)

def say (line : Bool → String) : Session Unit := do
  report (line (← read).colour)

def settingsFor (globals locals : List Given) : Session Settings :=
  resolveSettings (valueOf? "config" globals) (overridesOf locals)

/-- Annotates a source, and prints its outline or writes it to a file. -/
def runAnnotate (globals locals : List Given) (input : String) (output : Option String) :
    Session Unit := do
  let settings ← settingsFor globals locals
  let source ← readSource input
  let (outline, stats) ← annotateSource settings.annotation source input
  let text := outline.toText settings.format
  match output with
  | none => print (text ++ "\n")
  | some path => do
    writeOutput ((← read).place.resolve path) text
    say fun isOn => successLine isOn ("Wrote " ++ path)
    say fun isOn => infoLine isOn "Policy" settings.policy.name
    say fun isOn => infoLine isOn "Comments" (toString stats.comments)
    say fun isOn => infoLine isOn "Attached" (toString stats.tally.attached)
    say fun isOn => infoLine isOn "Residual" (toString stats.tally.residual)

def runComments (globals locals : List Given) (input : String) : Session Unit := do
  let settings ← settingsFor globals locals
  let source ← readSource input
  let comments ← extractComments settings.wanted source
  if isGiven "json" locals then
    print ((Json.arr (comments.map (Comment.toJson false))).render true ++ "\n")
  else
    let isOn := (← read).colour
    print (String.join (comments.map fun c => commentLine isOn c ++ "\n"))
    say fun isOn => infoLine isOn "Total" (toString comments.length)

def runSpans (locals : List Given) (input : String) : Session Unit := do
  let source ← readSource input
  let outline ← outlineOf source input
  let spans ← collectSpans outline
  if isGiven "json" locals then
    print ((Json.arr (spans.map Outline.NodeSpan.toJson)).render true ++ "\n")
  else
    let isOn := (← read).colour
    print (String.join (spans.map fun n => nodeLine isOn outline n ++ "\n"))
    say fun isOn => infoLine isOn "Items" (toString outline.items.length)
    say fun isOn => infoLine isOn "Spans" (toString spans.length)

/-- Writes a settings file; one that is there is overwritten only on demand. -/
def runInit (globals locals : List Given) : Session Unit := do
  let path := settingsPath (← read).place (valueOf? "config" globals)
  if (← get).disk.hasPath path && !isGiven "force" locals then
    say fun isOn => Colour.yellow.paint isOn ("  Config already exists: " ++ path) ++ "\n"
    say fun isOn =>
      Colour.gray.paint isOn "  Use " ++ Colour.cyan.paint isOn "--force" ++
        Colour.gray.paint isOn " to overwrite." ++ "\n"
  else
    createSettings path
    say fun isOn => successLine isOn ("Created " ++ path)

/-- Runs a command with its arguments, of which the required ones are there. -/
def runCommand (c : Command) (globals locals : List Given) (arguments : List String) :
    Session Unit :=
  match Task.ofCommand? c, arguments with
  | some .annotate, input :: others => runAnnotate globals locals input others.head?
  | some .comments, input :: _ => runComments globals locals input
  | some .spans, input :: _ => runSpans locals input
  | some .init, _ => runInit globals locals
  | _, _ => pure ()

def logDirectory? (here : Place) (globals : List Given) : Option String :=
  ((valueOf? "log-dir" globals).filter fun dir => !dir.isEmpty).map fun dir =>
    here.resolve (here.expandTilde dir)

def setUpLogging (globals : List Given) : Session Unit := do
  match logDirectory? (← read).place globals with
  | some dir => let _ ← useLogDirectory .standard dir
  | none => let _ ← activeLogger
  if isGiven "verbose" globals then
    setThreshold (Log.Level.threshold .debug)

def showsDetails (env : Environment) : Bool := (env.firstSet? Log.Level.switches).isSome

def detailsOf (here : Place) : Fault → Option String
  | .failure f => some ("  Developer: " ++ f.developerMessage here)
  | .disk e => some ("  Stack: " ++ e.heading ++ ": " ++ Text.firstLine e.message)
  | .upset (.error message) => some ("  Stack: Error: " ++ Text.firstLine message)
  | .upset (.text _) => none

def userMessageOf : Fault → String
  | .failure f => f.userMessage
  | .disk e => e.message
  | .upset u => u.message

def reportFault (e : Fault) : Session Unit := do
  let host ← read
  say fun isOn => errorLine isOn (userMessageOf e)
  if showsDetails host.environment then
    match detailsOf host.place e with
    | some details => say fun isOn => Colour.gray.paint isOn details ++ "\n"
    | none => pure ()
  else
    say fun isOn =>
      Colour.gray.paint isOn "  For more details, run with DEBUG=1 environment variable" ++ "\n"

def packageFile (host : Host) : String := Path.join host.packageDir "package.json"

def versionOf (host : Host) (disk : Disk) : String :=
  let text := (disk.read (packageFile host)).toOption
  match (text.bind Json.read?).bind (Json.get? "version") with
  | some (.str version) => version
  | _ => "0.0.0"

def runToEnd (c : Command) (globals locals : List Given) (arguments : List String) :
    Session Nat := do
  let outcome ← attempt do
    setUpLogging globals
    runCommand c globals locals arguments
  let code ← match outcome with
    | .ok _ => pure 0
    | .error e => do
      reportFault e
      pure 1
  flush
  pure code

def runLine (args : List String) : Session Nat := do
  match request program args with
  | .run c globals locals arguments => runToEnd c globals locals arguments
  | .version => do
    print (versionOf (← read) (← get).disk ++ "\n")
    pure 0
  | .help c isAsked => do
    let text := match c with
      | some c => c.help program
      | none => program.help
    if isAsked then
      print text
      pure 0
    else
      report text
      pure 1
  | .misuse m => do
    report (m.message ++ "\n")
    pure 1

structure Result where
  output : String
  errors : String
  exitCode : Nat
  disk : Disk

def run (host : Host) (disk : Disk) (args : List String) : Result :=
  match (runLine args).runOn host (.fresh disk) with
  | (outcome, s) =>
    { output := s.output
      errors := s.errors
      exitCode := match outcome with
        | .ok code => code
        | .error _ => 1
      disk := s.disk }

end CommandLine
end Marginalia
