import Marginalia.Json.Writer
import Marginalia.Log.Level

/-!
# Log entries

An event has a level, the component that reports it, a message and details. Its
entry is one line, with the details as JSON if there are any.
-/

namespace Marginalia
namespace Log

structure Event where
  level : Level
  component : String
  message : String
  details : Json
deriving Repr, Inhabited

namespace Event

def of (level : Level) (component message : String) (details : Json.Members) : Event :=
  { level, component, message, details := .obj details }

def isTelling : Json → Bool
  | .obj ms => !ms.isEmpty
  | .arr vs => !vs.isEmpty
  | .str s => !s.isEmpty
  | _ => false

def entry (stamp : String) (e : Event) : String :=
  "[" ++ stamp ++ "] [" ++ e.level.name ++ "] [" ++ e.component ++ "] " ++ e.message ++
    (if isTelling e.details then " " ++ e.details.render false else "")

end Event
end Log
end Marginalia
