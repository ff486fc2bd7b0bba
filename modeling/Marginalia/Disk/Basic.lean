import Marginalia.Path.Basic

/-!
# Files and directories

A disk maps places, given by their segments below the root, to files and
directories. The root is a directory, and relative paths start at the working
directory. Here a disk is looked at from outside, by the places on it; the
walks and operations of a program are built on top.

Links, permissions, and faults of the device below (one that is full or cannot
be read) are outside this description: what is on a disk can be read, written
and removed. The contents of files are texts.
-/

namespace Marginalia

inductive Disk.Entry where
  | file (content : String)
  | directory
deriving DecidableEq, Repr, Inhabited

structure Disk where
  workingDir : String
  entries : List (List Path.Segment × Disk.Entry)
deriving Repr, Inhabited

namespace Disk

/-- The segments of a place below the root. -/
abbrev Key := List Path.Segment

variable (d : Disk)

def entry? (key : Key) : Option Entry :=
  if key = [] then some .directory else d.entries.lookup key

/-- Puts an entry at a place, over what was there. -/
def put (key : Key) (e : Entry) : Disk :=
  { d with
    entries :=
      if d.entries.any fun x => x.1 == key then
        d.entries.map fun x => if x.1 == key then (key, e) else x
      else d.entries ++ [(key, e)] }

def erase (key : Key) : Disk :=
  { d with entries := d.entries.filter fun x => !(x.1 == key) }

/-- Moves what is at or below one place to another. -/
def moveAll (source target : Key) : Disk :=
  { d with
    entries := d.entries.map fun x =>
      if source.isPrefixOf x.1 then (target ++ x.1.drop source.length, x.2) else x }

def isEmptyDir (key : Key) : Bool :=
  d.entries.all fun x => !(key.isPrefixOf x.1 && key.length < x.1.length)

/-- The places on the way from the root to a place, that place itself excluded. -/
def above (key : Key) : List Key := (List.range key.length).map fun n => key.take n

def ensureDir (key : Key) : Disk :=
  if (d.entry? key).isSome then d else d.put key .directory

def ensureDirs (keys : List Key) : Disk := keys.foldl ensureDir d

/-- The place of a path, taken as it is written. -/
def placeOf (path : String) : Key := Path.segments d.workingDir.toList path.toList

/-- A disk with a working directory and nothing else. -/
def bare (workingDir : String) : Disk :=
  let d : Disk := { workingDir, entries := [] }
  let key := Path.segments [] workingDir.toList
  d.ensureDirs (above key ++ [key])

/-- Adds a file, or a directory if the path ends in a slash, and the directories above it. -/
def add (path content : String) : Disk :=
  let key := d.placeOf path
  if Text.endsWith "/" path then d.ensureDirs (above key ++ [key])
  else (d.ensureDirs (above key)).put key (.file content)

def pathOf (key : Key) : String := String.ofList (Path.ofSegments key)

/-- The files with their contents, and the empty directories with a slash at the end. -/
def listing : List (String × String) :=
  d.entries.filterMap fun x =>
    match x.2 with
    | .file content => some (pathOf x.1, content)
    | .directory => if d.isEmptyDir x.1 then some (pathOf x.1 ++ "/", "") else none

/-- A disk without what is at or below a place. -/
def without (path : String) : Disk :=
  let key := d.placeOf path
  { d with entries := d.entries.filter fun x => !key.isPrefixOf x.1 }

end Disk
end Marginalia
