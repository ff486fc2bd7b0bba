import Marginalia.Log.Complaint
import Marginalia.Log.Event
import Marginalia.Log.Rotation

/-!
# Loggers

A logger writes the entries of the levels it has enabled, to the error console
or to rotating files. Entries for files wait in a queue until it is flushed; an
entry that cannot be written goes to the console together with the reason.
-/

namespace Marginalia
namespace Log

/-- Where entries go. -/
inductive Sink where
  | console
  | files (rotation : Rotation) (queue : List String)
deriving DecidableEq, Repr, Inhabited

structure Logger where
  threshold : Number
  sink : Sink
deriving DecidableEq, Repr, Inhabited

/-- A choice of log files; what is left out has a default. -/
structure Config where
  threshold : Option Number
  fileName : Option String
  maxSize : Option Number
  maxFiles : Option Number
deriving DecidableEq, Repr, Inhabited

def Config.standard : Config :=
  { threshold := none, fileName := none, maxSize := none, maxFiles := none }

def defaultFileName : String := "syntree-comments.log"

/-- Ten mebibytes. -/
def defaultMaxSize : Number := .int 10485760

def defaultMaxFiles : Number := .int 3

def Config.rotation (c : Config) (directory : String) : Rotation :=
  { directory
    fileName := c.fileName.getD defaultFileName
    maxSize := c.maxSize.getD defaultMaxSize
    maxFiles := c.maxFiles.getD defaultMaxFiles }

namespace Logger

/-- A logger for files in a directory, which is made if it is missing. An empty name, or a
directory that cannot be made, means the console. The last component is the report. -/
def forDirectory (env : Environment) (c : Config) (directory : String) (d : Disk) :
    Logger × Disk × String :=
  let threshold := c.threshold.getD (Level.ofEnvironment env).threshold
  if directory.isEmpty then ({ threshold, sink := .console }, d, "")
  else
    match d.makeDirs directory with
    | (.ok _, d') => ({ threshold, sink := .files (c.rotation directory) [] }, d', "")
    | (.error e, d') =>
      ({ threshold, sink := .console }, d',
        Complaint.line ("create log directory: " ++ directory) e)

/-- Takes an event, and gives what appears on the console at once. -/
def log (stamp : String) (e : Event) (l : Logger) : Logger × String :=
  if e.level.isEnabled l.threshold then
    match l.sink with
    | .console => (l, e.entry stamp ++ "\n")
    | .files rotation queue => ({ l with sink := .files rotation (queue ++ [e.entry stamp]) }, "")
  else (l, "")

def writeEntry (r : Rotation) (entry : String) (d : Disk) : Disk × String :=
  match r.append entry d with
  | (.ok _, d') => (d', "")
  | (.error e, d') => (d', Complaint.line "write to log file:" e ++ entry ++ "\n")

/-- Writes queued entries in order. -/
def writeAll (r : Rotation) : List String → Disk → Disk × String
  | [], d => (d, "")
  | entry :: rest, d =>
    let first := writeEntry r entry d
    let others := writeAll r rest first.1
    (others.1, first.2 ++ others.2)

/-- Empties the queue, and gives what appears on the console. -/
def flush (l : Logger) (d : Disk) : Logger × Disk × String :=
  match l.sink with
  | .console => (l, d, "")
  | .files rotation queue =>
    let written := writeAll rotation queue d
    ({ l with sink := .files rotation [] }, written.1, written.2)

end Logger
end Log
end Marginalia
