import Marginalia.Session.Basic
import Marginalia.Settings

/-!
# Settings of a session

Settings come from a file. A file that the user names has to be there and to be
valid; the usual file of a directory may be missing, and if it is not valid the
preferred settings are taken and a warning is logged.
-/

namespace Marginalia
namespace Session

def settingsComponent : String := "ConfigManager"

/-- The settings in the file at a path, which has to be there and valid if it is required. -/
def loadSettings (isRequired : Bool) (path : String) : Session Settings := do
  let _ ← activeLogger
  if !(← get).disk.hasPath path then
    if isRequired then
      fail (.fileNotFound path)
    else
      debug settingsComponent "No config file found, using defaults" [("configPath", .str path)]
      pure .preferred
  else
    match Settings.readFile (← get).disk path with
    | .ok settings =>
      debug settingsComponent "Config loaded successfully" [("configPath", .str path)]
      pure settings
    | .error reason =>
      if isRequired then
        fail (.invalidConfig path reason.message)
      else
        log (.of .warn settingsComponent "Config validation failed, using defaults"
          [("configPath", .str path), ("errors", .str reason.message)])
        pure .preferred

/-- Writes a file with the preferred settings and notes on them. -/
def createSettings (path : String) : Session Unit := do
  writeAtomic path Settings.documentedText
  log (.of .info settingsComponent "Generated default config file" [("configPath", .str path)])

/-- The path of the settings file: the one that the user names, if any, or else that of the
working directory. -/
def settingsPath (here : Place) (named : Option String) : String :=
  match named.filter fun path => !path.isEmpty with
  | some path => here.resolve (here.expandTilde path)
  | none => here.settingsFile here.workingDir

def resolveSettings (named : Option String) (overrides : Settings.Overrides) :
    Session Settings := do
  let isRequired := named.any fun path => !path.isEmpty
  let settings ← loadSettings isRequired (settingsPath (← read).place named)
  pure (settings.override overrides)

end Session
end Marginalia
