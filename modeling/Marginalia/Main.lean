import Marginalia.CommandLine.Footprint
import Marginalia.Disk.Change
import Marginalia.Log.Stamp
import Std.Time.DateTime.Timestamp

/-!
# Entry point

Reads the part of the disk that the command line is about, runs the command
line on it, and carries out what it left behind. No grammar is linked into this
program, so a source is parsed only by hosts that bring one.
-/

namespace Marginalia
namespace Main

/-- What an opened path leads to: a directory can be opened and not read. -/
def inspect (handle : IO.FS.Handle) : IO Disk.Entry := do
  try
    pure (.file (← handle.readToEnd))
  catch
    | .inappropriateType .. => pure .directory
    | e => throw e

def look (path : String) : IO (Option Disk.Entry) := do
  try
    pure (some (← inspect (← IO.FS.Handle.mk path .read)))
  catch
    | .noFileOrDirectory .. | .inappropriateType .. => pure none
    | e => throw e

def copyFrom (d : Disk) : List Disk.Key → IO Disk
  | [] => pure d
  | key :: rest => do
    match ← look (Disk.pathOf key) with
    | some e => copyFrom (if key.isEmpty then d else d.put key e) rest
    | none => pure d

/-- The part of the real disk that some paths are about. -/
def snapshot (workingDir : String) (paths : List String) : IO Disk :=
  paths.foldlM (fun d path =>
    let key := Path.segments workingDir.toList path.toList
    copyFrom d (Disk.above key ++ [key])) (Disk.bare workingDir)

def carryOut : Disk.Change → IO Unit
  | .makeDir path => IO.FS.createDirAll path
  | .writeFile path content => IO.FS.writeFile path content
  | .removeFile path => IO.FS.removeFile path

/-- The variables that the program looks at. -/
def watched : List String :=
  ["DEBUG", "SYNTREE_COMMENTS_DEBUG", "LOG_LEVEL", "SYNTREE_COMMENTS_LOG_LEVEL"]

def environment : IO Environment :=
  watched.filterMapM fun name => do
    pure ((← IO.getEnv name).map fun value => (name, value))

def noLibrary : Grammar.Library :=
  { start := .error (.error "no grammar is linked into this program")
    load := fun _ => .error (.error "no grammar is linked into this program")
    parse := fun _ => .ok none }

def hostOf : IO Host := do
  let millis := (← Std.Time.Timestamp.now).toMillisecondsSinceUnixEpoch.val.toNat
  let executable := (← IO.appPath).toString
  pure
    { place :=
        { workingDir := (← IO.currentDir).toString, home := (← IO.getEnv "HOME").getD "/" }
      environment := ← environment
      stamp := Log.stampOfMillis millis
      tag := toString millis ++ "." ++ toString (← IO.monoNanosNow)
      colour := ← (← IO.getStdout).isTty
      packageDir := Path.directory (Path.directory executable)
      executable
      library := noLibrary }

def run (args : List String) : IO UInt32 := do
  let host ← hostOf
  let disk ← snapshot host.place.workingDir (CommandLine.footprint host args)
  let result := CommandLine.run host disk args
  (disk.changes result.disk).forM carryOut
  (← IO.getStdout).putStr result.output
  (← IO.getStderr).putStr result.errors
  pure result.exitCode.toUInt32

end Main
end Marginalia

def main (args : List String) : IO UInt32 := Marginalia.Main.run args
