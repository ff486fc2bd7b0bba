import Marginalia.Disk.Fault
import Marginalia.Json.Writer
import Marginalia.Text.Basic

/-!
# Complaints

A complaint tells on the console that a log file cannot be used, and why. A
percent sign and a letter in its text mark a place for the fault: the first mark
takes it, and without one the fault comes at the end. Two percent signs stand
for one. The trace of a fault takes further lines, and only the first line of a
complaint is shown.
-/

namespace Marginalia
namespace Log
namespace Complaint

open Disk (Fault)

def members : Fault → Json.Members
  | .failed cause operation =>
    [("errno", .int cause.number), ("code", .str cause.code), ("syscall", .str operation.name)] ++
      operation.paths.map fun p => (p.1, .str p.2)
  | .unremovable path => [("code", .str (Fault.code (.unremovable path))), ("path", .str path)]
  | .illegalPath path => [("code", .str (Fault.code (.illegalPath path)))]

/-- Whether a fault has a trace. The faults found before a file is removed have none. -/
def hasTrace : Fault → Bool
  | .failed _ (.inspect _) | .unremovable _ => false
  | .failed .. | .illegalPath _ => true

/-- A fault with the end of the line before its trace or, in its place, before its members. -/
def traced (e : Fault) : String :=
  let text := e.heading ++ ": " ++ e.message
  if hasTrace e then text ++ "\n" else "[" ++ text ++ "] \x7b\n"

/-- The ways in which a mark takes a fault. -/
inductive Mark where
  | traced
  | number
  | members
  | nothing
deriving DecidableEq, Repr

def Mark.ofLetter? : Char → Option Mark
  | 's' | 'o' | 'O' => some .traced
  | 'd' | 'i' | 'f' => some .number
  | 'j' => some .members
  | 'c' => some .nothing
  | _ => none

/-- What a mark puts in its place; a fault has no number. -/
def Mark.text (e : Fault) : Mark → String
  | .traced => Complaint.traced e
  | .number => "NaN"
  | .members => (Json.obj (Complaint.members e)).render false
  | .nothing => ""

/-- A text with its marks filled in. The fault is told at the end if no mark took it. -/
def fill (e : Fault) (isTold : Bool) : List Char → List Char
  | '%' :: c :: rest =>
    if c = '%' then '%' :: fill e isTold rest
    else
      match if isTold then none else Mark.ofLetter? c with
      | some mark => (mark.text e).toList ++ fill e true rest
      | none => '%' :: c :: fill e isTold rest
  | c :: rest => c :: fill e isTold rest
  | [] => if isTold then [] else ' ' :: (traced e).toList

def line (what : String) (e : Fault) : String :=
  Text.firstLine (String.ofList (fill e false ("[Logger] Failed to " ++ what).toList)) ++ "\n"

end Complaint
end Log
end Marginalia
