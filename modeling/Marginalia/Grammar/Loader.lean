/-!
# Shared loading

Something that is loaded at most once: whoever asks for it while a load is in
progress, or after one succeeded, shares that load and its outcome. A load that
failed is forgotten, so the next request starts a new one.
-/

namespace Marginalia
namespace Grammar

/-- The number of a load. -/
abbrev Ticket := Nat

/-- The loads so far: how many were started, which one is shared, and how those ended that have
ended. -/
structure Loader (ε : Type) where
  started : Nat
  shared : Option Ticket
  outcomes : List (Ticket × Except ε Unit)

namespace Loader

variable {ε : Type}

def idle : Loader ε := { started := 0, shared := none, outcomes := [] }

variable (l : Loader ε)

/-- How a load ended, if it has. -/
def outcome? (t : Ticket) : Option (Except ε Unit) := l.outcomes.lookup t

/-- Asks for the load: the ticket of the shared one, or of a new one. -/
def request : Ticket × Loader ε :=
  match l.shared with
  | some t => (t, l)
  | none => (l.started, { l with started := l.started + 1, shared := some l.started })

def inProgress? : Option Ticket := l.shared.filter fun t => (l.outcome? t).isNone

/-- Ends the load that is in progress; a failed one is no longer shared. -/
def settle (result : Except ε Unit) : Loader ε :=
  match l.inProgress? with
  | none => l
  | some t =>
    { l with
      outcomes := (t, result) :: l.outcomes
      shared := match result with
        | .ok _ => some t
        | .error _ => none }

def isReady : Bool :=
  l.shared.any fun t => l.outcome? t matches some (.ok _)

end Loader
end Grammar
end Marginalia
