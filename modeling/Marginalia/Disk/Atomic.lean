import Marginalia.Disk.Operation

/-!
# Writing a file in one step

A file is written under a temporary name beside the target and then renamed, so
that nobody sees a part of it. If a step fails the temporary file is removed
again and the fault of that step is reported.
-/

namespace Marginalia
namespace Disk

/-- Operations that change a disk until one of them fails. -/
abbrev Action (α : Type) := ExceptT Fault (StateM Disk) α

def Action.of (operation : Disk → Except Fault Disk) : Action Unit := fun d =>
  match operation d with
  | .ok d' => (.ok (), d')
  | .error e => (.error e, d)

/-- An operation of several steps, some of which may be done when one fails, as an action. -/
def Action.ofSteps (operation : Disk → Except Fault Unit × Disk) : Action Unit := operation

def temporary (tag target : String) : String := target ++ ".tmp." ++ tag

def writeSteps (tag target content : String) : Action Unit := do
  Action.ofSteps (·.makeDirs (Path.directory target))
  Action.of (·.write (temporary tag target) content)
  Action.of (·.rename (temporary tag target) target)

/-- Writes a file in one step, with the directories above it. -/
def writeAtomic (tag target content : String) : Action Unit :=
  tryCatch (writeSteps tag target content) fun e => do
    tryCatch (Action.of (·.unlink (temporary tag target))) fun _ => pure ()
    throw e

/-- A text that ends in a newline. -/
def endingInNewline (content : String) : String :=
  if Text.endsWith "\n" content then content else content ++ "\n"

end Disk
end Marginalia
