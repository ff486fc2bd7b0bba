import Marginalia.Disk.Walk

/-!
# Operations on files

What a program does with files: read, write, append, rename and remove them,
and make directories. Faults name paths in their absolute form; a path with a
null character is refused where something is to be made at it. An operation
changes the disk only if it succeeds, except that the directories made on the
way to one that cannot be made stay.
-/

namespace Marginalia
namespace Disk

variable (d : Disk)

def read (path : String) : Except Fault String :=
  match d.locate path with
  | .ok (_, .file content) => .ok content
  | .ok (_, .directory) => .error (.failed .isDirectory .read)
  | .error cause => .error (.failed cause (.openFile (d.absolute path)))

/-- Puts a file at a path; its content is made from what the file held before, if it was there. -/
def update (path : String) (content : Option String → String) : Except Fault Disk :=
  let failed (cause : Cause) : Except Fault Disk :=
    .error (.failed cause (.openFile (d.absolute path)))
  if isIllegal path then .error (.illegalPath (d.absolute path))
  else
    match d.targetOf path with
    | .error cause => failed cause
    | .ok .unnamed => failed .isDirectory
    | .ok (.named key slash) =>
      match slash, d.entry? key with
      | true, _ => failed .isDirectory
      | false, some .directory => failed .isDirectory
      | false, some (.file old) => .ok (d.put key (.file (content (some old))))
      | false, none => .ok (d.put key (.file (content none)))

def write (path content : String) : Except Fault Disk := d.update path fun _ => content

/-- Adds to the end of a file, which is made if need be. -/
def append (path content : String) : Except Fault Disk :=
  d.update path fun old => old.getD "" ++ content

/-- Makes the directory that a route leads to. -/
def makeDir (r : Route) : Except Cause Disk :=
  match d.target r with
  | .error cause => .error cause
  | .ok .unnamed => .error .alreadyExists
  | .ok (.named key _) =>
    if (d.entry? key).isSome then .error .alreadyExists else .ok (d.put key .directory)

/-- Makes the directory that a route leads to, unless it is there. A file that is there instead
counts as such at the end of a path, and as an obstacle on the way. -/
def provideDir (isWhole : Bool) (r : Route) : Except Cause Disk :=
  match d.makeDir r with
  | .error .alreadyExists =>
    match d.find r with
    | .ok (_, .directory) => .ok d
    | .ok (_, .file _) => .error (if isWhole then .alreadyExists else .notDirectory)
    | .error cause => .error cause
  | made => made

/-- Makes the directory at the end of a route, whose steps are given backwards. If something on
the way is missing, the directory before it is made first. -/
def provideDirs (isWhole : Bool) : List Path.Segment → Disk → Except Cause Unit × Disk
  | [], d => (.error .notFound, d)
  | last :: front, d =>
    let r : Route := (last :: front).reverse
    match d.provideDir isWhole r with
    | .ok made => (.ok (), made)
    | .error .notFound =>
      match provideDirs false front d with
      | (.error cause, d') => (.error cause, d')
      | (.ok _, d') =>
        match d'.provideDir isWhole r with
        | .ok made => (.ok (), made)
        | .error cause => (.error cause, d')
    | .error cause => (.error cause, d)

/-- Makes a directory and the missing ones above it. -/
def makeDirs (path : String) : Except Fault Unit × Disk :=
  if isIllegal path then (.error (.illegalPath (d.absolute path)), d)
  else
    match d.route path with
    | .error cause => (.error (.failed cause (.makeDirs (d.absolute path))), d)
    | .ok r =>
      match provideDirs true r.reverse d with
      | (.ok _, d') => (.ok (), d')
      | (.error cause, d') => (.error (.failed cause (.makeDirs (d.absolute path))), d')

/-- Why what is at one place cannot be moved to another, if so. -/
def moveObstacle? (source target : Key) (moved : Entry) : Option Cause :=
  if target.isPrefixOf source && target != source then some .notEmpty
  else
    match moved, d.entry? target with
    | .file _, some .directory => some .isDirectory
    | .file _, _ => none
    | .directory, some (.file _) => some .notDirectory
    | .directory, some .directory => if d.isEmptyDir target then none else some .notEmpty
    | .directory, none => none

/-- Moves a file or a directory to a name, over what has that name. A file is no directory, so
its names end in no slash. -/
def move (source target : Key) (slash : Bool) : Except Cause Disk :=
  match d.entry? source with
  | none => .error .notFound
  | some moved =>
    if slash && moved != .directory then .error .notDirectory
    else if moved = .directory && source.isPrefixOf target && source != target then .error .invalid
    else if source = target then .ok d
    else
      match d.moveObstacle? source target moved, moved with
      | some cause, _ => .error cause
      | none, .file content => .ok ((d.erase source).put target (.file content))
      | none, .directory => .ok ((d.erase target).moveAll source target)

def rename (source target : String) : Except Fault Disk :=
  let failed (cause : Cause) : Except Fault Disk :=
    .error (.failed cause (.rename (d.absolute source) (d.absolute target)))
  match d.targetOf source, d.targetOf target with
  | .error cause, _ => failed cause
  | .ok _, .error cause => failed cause
  | .ok (.named a slash), .ok (.named b slash') =>
    match d.move a b (slash || slash') with
    | .ok moved => .ok moved
    | .error cause => failed cause
  | .ok _, .ok _ => failed .busy

def unlink (path : String) : Except Fault Disk :=
  let failed (cause : Cause) : Except Fault Disk :=
    .error (.failed cause (.unlink (d.absolute path)))
  match d.targetOf path with
  | .error cause => failed cause
  | .ok .unnamed => failed .isDirectory
  | .ok (.named key slash) =>
    match d.entry? key with
    | none => failed .notFound
    | some .directory => failed .isDirectory
    | some (.file _) => if slash then failed .notDirectory else .ok (d.erase key)

/-- Removes a file that need not be there. -/
def discard (path : String) : Except Fault Disk :=
  match d.locate path with
  | .ok (key, .file _) => .ok (d.erase key)
  | .ok (_, .directory) => .error (.unremovable (d.absolute path))
  | .error .notFound => .ok d
  | .error cause => .error (.failed cause (.inspect (d.absolute path)))

/-- The size of a directory in bytes: one block. -/
def directorySize : Nat := 4096

def size? (path : String) : Option Nat :=
  (d.locate path).toOption.map fun x =>
    match x.2 with
    | .file content => content.utf8ByteSize
    | .directory => directorySize

end Disk
end Marginalia
