import Marginalia.CommandLine.Run

/-!
# The files of a run

The paths that a command line can look at or change. A disk that agrees with
the real one on these is all that a run needs.
-/

namespace Marginalia
namespace CommandLine

open Session (candidatePaths settingsPath)

def logFiles (directory : String) : List String :=
  let rotation := Log.Config.standard.rotation directory
  directory :: rotation.rotatedPath rotation.lastIndex :: rotation.moving.map rotation.pathAt

def grammarFiles (host : Host) : List String :=
  (Grammar.runtimeFiles ++ [Grammar.grammarFile]).flatMap (candidatePaths host)

/-- The paths that a command line can look at or change. -/
def footprint (host : Host) (args : List String) : List String :=
  packageFile host ::
    match request program args with
    | .run _ globals _ arguments =>
      settingsPath host.place (valueOf? "config" globals) :: arguments.map host.place.resolve ++
        ((logDirectory? host.place globals).map logFiles).getD [] ++ grammarFiles host
    | _ => []

end CommandLine
end Marginalia
