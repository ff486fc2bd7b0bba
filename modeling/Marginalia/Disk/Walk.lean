import Marginalia.Disk.Basic
import Marginalia.Disk.Fault

/-!
# Walks on a disk

A path is followed step by step: each step starts in a directory, so a walk
fails where something on the way is missing or is a file, even if a later
double dot leads back. A slash at the end of a path asks for a directory, and
the empty path leads nowhere. An operation on a name stops before the last
segment: its target is a name in a directory that is there.

The commands of the program resolve their paths, so that walks start at the root.
A relative path that is handed over all the same is completed before it is
walked: it continues the working directory as text, without the detours in it,
and faults name it in that form.
-/

namespace Marginalia
namespace Disk

/-- The greatest size of a segment in bytes. -/
def nameLimit : Nat := 255

/-- The size in bytes that a path has to stay below. -/
def pathLimit : Nat := 4096

def isTooLong (s : Path.Segment) : Bool := decide (nameLimit < (String.ofList s).utf8ByteSize)

/-- The steps that a path takes from the root. -/
abbrev Route := List Path.Segment

variable (d : Disk)

/-- The path that a path is completed to. An absolute path and the empty one stay as they are,
and any other one continues that of the working directory. -/
def absolute (path : String) : String :=
  if path.isEmpty || Path.isAbsolute path.toList then path else Path.join d.workingDir path

/-- Whether a path has a null character, which no file has in its name. -/
def isIllegal (path : String) : Bool := path.toList.contains '\x00'

/-- The route of a path. The empty path and one with a null character lead nowhere. -/
def route (path : String) : Except Cause Route :=
  if path.isEmpty || isIllegal path then .error .notFound
  else if pathLimit ≤ (d.absolute path).utf8ByteSize then .error .nameTooLong
  else .ok (Path.pieces (d.absolute path).toList)

/-- One step from a place, which has to be a directory. What the step leads to need not be
there. -/
def step (place : Key) (s : Path.Segment) : Except Cause Key :=
  match d.entry? place with
  | none => .error .notFound
  | some (.file _) => .error .notDirectory
  | some .directory =>
    if Path.isIdle s then .ok place
    else if s = Path.up then .ok place.dropLast
    else if isTooLong s then .error .nameTooLong
    else .ok (place ++ [s])

/-- The place that steps lead to. -/
def follow (place : Key) : List Path.Segment → Except Cause Key
  | [] => .ok place
  | s :: rest =>
    match d.step place s with
    | .ok next => follow next rest
    | .error cause => .error cause

theorem follow_append (place : Key) (a b : List Path.Segment) :
    d.follow place (a ++ b) = (d.follow place a).bind fun next => d.follow next b := by
  induction a generalizing place with
  | nil => rfl
  | cons s rest ih =>
    simp only [List.cons_append, follow]
    cases d.step place s with
    | ok next => exact ih next
    | error cause => rfl

/-- What a route leads to, and where it is. -/
def find (r : Route) : Except Cause (Key × Entry) :=
  match d.follow [] r with
  | .error cause => .error cause
  | .ok key =>
    match d.entry? key with
    | some e => .ok (key, e)
    | none => .error .notFound

def locate (path : String) : Except Cause (Key × Entry) :=
  match d.route path with
  | .ok r => d.find r
  | .error cause => .error cause

def hasPath (path : String) : Bool := (d.locate path).toOption.isSome

/-- What an operation on a name is about. -/
inductive Target where
  /-- A name in a directory, or the root; `slash` tells whether slashes follow it. -/
  | named (key : Key) (slash : Bool)
  /-- A directory that is there and has no name in the path: the place of a dot or of two. -/
  | unnamed
deriving DecidableEq, Repr

/-- The steps of a route without the slashes at its end, the last one first. -/
def Route.backwards (r : Route) : List Path.Segment := r.reverse.dropWhile (· = [])

def Route.endsInSlash (r : Route) : Bool := r.getLast? == some []

def target (r : Route) : Except Cause Target :=
  match Route.backwards r with
  | [] => .ok (.named [] true)
  | last :: front =>
    match d.follow [] front.reverse with
    | .error cause => .error cause
    | .ok directory =>
      match d.step directory last with
      | .error cause => .error cause
      | .ok key =>
        if Path.isIdle last || last = Path.up then .ok .unnamed
        else .ok (.named key (Route.endsInSlash r))

def targetOf (path : String) : Except Cause Target :=
  match d.route path with
  | .ok r => d.target r
  | .error cause => .error cause

end Disk
end Marginalia
