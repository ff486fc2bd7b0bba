import Marginalia.Disk.Atomic
import Marginalia.Number.Order
import Marginalia.Number.Shortest

/-!
# Rotating log files

Entries are appended to the active file. A file that has reached its greatest
size is rotated away before the next entry: the active file gets index 1, the
file with index 1 gets index 2, and so on; the file with the last index is
removed.
-/

namespace Marginalia
namespace Log

/-- Where log files are and how many of which size are kept, the active one included. -/
structure Rotation where
  directory : String
  fileName : String
  maxSize : Number
  maxFiles : Number
deriving DecidableEq, Repr, Inhabited

namespace Rotation

variable (r : Rotation)

def activePath : String := Path.join r.directory r.fileName

def rotatedPath (index : Number) : String :=
  Path.join r.directory (Path.stem ".log" r.fileName ++ "." ++ index.toText ++ ".log")

/-- The path of the file with an index; the active file has index 0. -/
def pathAt (index : Number) : String :=
  if index = .int 0 then r.activePath else r.rotatedPath index

def countdown (x : Number) : Nat → List Number
  | 0 => []
  | n + 1 => x :: countdown (x.addInt (-1)) n

/-- The numbers from a finite number down to zero, in steps of one. -/
def downToZero (x : Number) : List Number := countdown x (x.floor + 1).toNat

/-- The last index that a file can have. -/
def lastIndex : Number := r.maxFiles.addInt (-1)

/-- The indices of the files that move on, the highest first. -/
def moving : List Number :=
  if r.maxFiles.isFinite then downToZero (r.maxFiles.addInt (-2)) else []

/-- Moves the file with an index to the next index, if it is there. -/
def advance (index : Number) : Disk.Action Unit := do
  if (← get).hasPath (r.pathAt index) then
    Disk.Action.of (·.rename (r.pathAt index) (r.rotatedPath (index.addInt 1)))

def isFull (d : Disk) : Bool :=
  (d.size? r.activePath).any fun n => decide (r.maxSize ≤ .int n)

/-- Makes room for an entry. -/
def rotate : Disk.Action Unit := do
  if r.isFull (← get) then
    Disk.Action.of (·.discard (r.rotatedPath r.lastIndex))
    r.moving.forM r.advance

def append (entry : String) : Disk.Action Unit := do
  r.rotate
  Disk.Action.of (·.append r.activePath (entry ++ "\n"))

end Rotation
end Log
end Marginalia
