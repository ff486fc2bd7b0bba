import Marginalia.Number.Order
import Marginalia.Text.Basic

/-!
# Log levels

Four levels by severity. A level name is read in any case; an unknown one means
`info`. The environment chooses the level of a logger: a debug switch comes
before a level name. A logger has a number as its threshold, which need not be
the rank of a level.
-/

namespace Marginalia

/-- The variables that a program finds set. -/
abbrev Environment := List (String × String)

/-- The value of the first of some variables that is set to something. -/
def Environment.firstSet? (env : Environment) (names : List String) : Option String :=
  names.findSome? fun name => (env.lookup name).filter fun v => !v.isEmpty

namespace Log

inductive Level where
  | error
  | warn
  | info
  | debug
deriving DecidableEq, Repr, Inhabited

namespace Level

/-- The rank of a level; the most severe one has the lowest. -/
def rank : Level → Nat
  | .error => 0
  | .warn => 1
  | .info => 2
  | .debug => 3

def name : Level → String
  | .error => "ERROR"
  | .warn => "WARN"
  | .info => "INFO"
  | .debug => "DEBUG"

def ofName (s : String) : Level :=
  match Text.upper s with
  | "ERROR" => .error
  | "WARN" => .warn
  | "WARNING" => .warn
  | "DEBUG" => .debug
  | _ => .info

/-- The threshold of a logger that writes entries down to this level. -/
def threshold (l : Level) : Number := .int l.rank

def isEnabled (l : Level) (threshold : Number) : Bool := decide (l.threshold ≤ threshold)

def isOn (value : String) : Bool :=
  value == "1" || value == "true" || Text.lower value == "debug"

/-- The debug switches, the first of which that is set counts. -/
def switches : List String := ["DEBUG", "SYNTREE_COMMENTS_DEBUG"]

/-- The level that an environment asks for. -/
def ofEnvironment (env : Environment) : Level :=
  if (env.firstSet? switches).any isOn then .debug
  else ((env.firstSet? ["LOG_LEVEL", "SYNTREE_COMMENTS_LOG_LEVEL"]).map ofName).getD .info

end Level
end Log
end Marginalia
