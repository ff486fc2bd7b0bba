import Marginalia.Failure
import Marginalia.Grammar.Library
import Marginalia.Grammar.Loader
import Marginalia.Log.Logger

/-!
# Sessions

A session is one run of the program: what it is told about its surroundings,
and the state that it changes, which is the disk, the two consoles, the active
logger and the grammar. A session is a function of these, so that every run can
be reasoned about; only the program's entry point touches the real ones.
-/

namespace Marginalia

/-- What a session is told about its surroundings. -/
structure Host where
  place : Place
  environment : Environment
  /-- The time stamp of log entries. -/
  stamp : String
  /-- What makes the names of temporary files unique. -/
  tag : String
  /-- Whether the consoles show colours. -/
  colour : Bool
  /-- The directory that the program is installed in. -/
  packageDir : String
  /-- The path of the program that runs this one. -/
  executable : String
  library : Grammar.Library

namespace Session

/-- What ends a session early. -/
inductive Fault where
  | failure (f : Failure)
  | disk (e : Disk.Fault)
  | upset (u : Grammar.Upset)
deriving DecidableEq, Repr

def Fault.message (here : Place) : Fault → String
  | .failure f => f.developerMessage here
  | .disk e => e.message
  | .upset u => u.message

def Fault.kind : Fault → String
  | .disk e => e.kind
  | .failure _ | .upset _ => "Error"

/-- How often the grammar library was used: starts of the runtime, loads of the grammar, parses,
and trees given back. `runtime` is the path of the runtime at the last start. -/
structure Usage where
  starts : Nat
  loads : Nat
  parses : Nat
  released : Nat
  runtime : Option String
deriving DecidableEq, Repr

def Usage.none : Usage := { starts := 0, loads := 0, parses := 0, released := 0, runtime := .none }

structure State where
  disk : Disk
  logger : Option Log.Logger
  /-- What was written to the output console. -/
  output : String
  /-- What was written to the error console. -/
  errors : String
  loader : Grammar.Loader Fault
  usage : Usage

def State.fresh (disk : Disk) : State :=
  { disk, logger := none, output := "", errors := "", loader := .idle, usage := .none }

end Session

abbrev Session (α : Type) := ReaderT Host (ExceptT Session.Fault (StateM Session.State)) α

namespace Session

variable {α : Type}

/-- Runs a step on a state. -/
def runOn (host : Host) (s : State) (step : Session α) : Except Fault α × State :=
  step host s

def print (text : String) : Session Unit :=
  modify fun s => { s with output := s.output ++ text }

def report (text : String) : Session Unit :=
  modify fun s => { s with errors := s.errors ++ text }

def onDisk (action : Disk.Action α) : Session α := do
  match action (← get).disk with
  | (.ok a, d) => do
    modify fun s => { s with disk := d }
    pure a
  | (.error e, d) => do
    modify fun s => { s with disk := d }
    throw (.disk e)

def give (l : Log.Logger) (e : Log.Event) : Session Unit := do
  let (l', shown) := l.log (← read).stamp e
  modify fun s => { s with logger := some l' }
  report shown

/-- The active logger. One for the console is made on first use. -/
def activeLogger : Session Log.Logger := do
  match (← get).logger with
  | some l => pure l
  | none => do
    let level := Log.Level.ofEnvironment (← read).environment
    let l : Log.Logger := { threshold := level.threshold, sink := .console }
    modify fun s => { s with logger := some l }
    if level = .debug then
      give l (.of .debug "logger" "Debug logging enabled via environment variable" [])
    pure l

def useLogDirectory (config : Log.Config) (directory : String) : Session Log.Logger := do
  let (l, d, shown) :=
    Log.Logger.forDirectory (← read).environment config directory (← get).disk
  modify fun s => { s with logger := some l, disk := d }
  report shown
  pure l

def setThreshold (threshold : Number) : Session Unit := do
  let l ← activeLogger
  modify fun s => { s with logger := some { l with threshold } }

def log (e : Log.Event) : Session Unit := do
  give (← activeLogger) e

/-- Logs an event of the lowest level. -/
def debug (component message : String) (details : Json.Members) : Session Unit :=
  log (.of .debug component message details)

def flush : Session Unit := do
  let (l, d, shown) := (← activeLogger).flush (← get).disk
  modify fun s => { s with logger := some l, disk := d }
  report shown

def fail (f : Failure) : Session α := do
  log (f.report (← read).place).event
  throw (.failure f)

def writeAtomic (path content : String) : Session Unit := do
  onDisk (Disk.writeAtomic (← read).tag path content)

def writeOutput (path content : String) : Session Unit :=
  tryCatch (writeAtomic path (Disk.endingInNewline content)) fun
    | .failure f => throw (.failure f)
    | e => do fail (.writeFailed path e.kind (e.message (← read).place))

end Session
end Marginalia
