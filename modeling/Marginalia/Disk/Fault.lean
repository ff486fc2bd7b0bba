import Marginalia.Text.Quoted

/-!
# Faults of file operations

Why an operation on files failed, and which operation it was. The wording of a
fault is given in one function.
-/

namespace Marginalia
namespace Disk

inductive Cause where
  | notFound
  | alreadyExists
  | notDirectory
  | isDirectory
  /-- A dot stands for the place of a file that has to be moved. -/
  | busy
  | notEmpty
  /-- A directory was to be moved below itself. -/
  | invalid
  | nameTooLong
deriving DecidableEq, Repr

namespace Cause

def code : Cause → String
  | .notFound => "ENOENT"
  | .alreadyExists => "EEXIST"
  | .notDirectory => "ENOTDIR"
  | .isDirectory => "EISDIR"
  | .busy => "EBUSY"
  | .notEmpty => "ENOTEMPTY"
  | .invalid => "EINVAL"
  | .nameTooLong => "ENAMETOOLONG"

def number : Cause → Int
  | .notFound => -2
  | .busy => -16
  | .alreadyExists => -17
  | .notDirectory => -20
  | .isDirectory => -21
  | .invalid => -22
  | .nameTooLong => -36
  | .notEmpty => -39

def text : Cause → String
  | .notFound => "no such file or directory"
  | .alreadyExists => "file already exists"
  | .notDirectory => "not a directory"
  | .isDirectory => "illegal operation on a directory"
  | .busy => "resource busy or locked"
  | .notEmpty => "directory not empty"
  | .invalid => "invalid argument"
  | .nameTooLong => "name too long"

end Cause

/-- An operation, with the paths as they were given. -/
inductive Operation where
  | makeDirs (path : String)
  | openFile (path : String)
  | read
  | inspect (path : String)
  | rename (source target : String)
  | unlink (path : String)
deriving DecidableEq, Repr

namespace Operation

def name : Operation → String
  | .makeDirs _ => "mkdir"
  | .openFile _ => "open"
  | .read => "read"
  | .inspect _ => "lstat"
  | .rename .. => "rename"
  | .unlink _ => "unlink"

/-- The paths of an operation, each under what it is to the operation. -/
def paths : Operation → List (String × String)
  | .makeDirs path | .openFile path | .inspect path | .unlink path => [("path", path)]
  | .read => []
  | .rename source target => [("path", source), ("dest", target)]

def inQuotes (path : String) : String := "'" ++ path ++ "'"

def text (o : Operation) : String :=
  match o.paths.map fun p => inQuotes p.2 with
  | [] => o.name
  | [path] => o.name ++ " " ++ path
  | source :: target :: _ => o.name ++ " " ++ source ++ " -> " ++ target

end Operation

inductive Fault where
  | failed (cause : Cause) (operation : Operation)
  /-- A directory stands where a file was to be removed. -/
  | unremovable (path : String)
  /-- A path has a null character. -/
  | illegalPath (path : String)
deriving DecidableEq, Repr

namespace Fault

def code : Fault → String
  | .failed cause _ => cause.code
  | .unremovable _ => "ERR_FS_EISDIR"
  | .illegalPath _ => "ERR_INVALID_ARG_VALUE"

def message : Fault → String
  | .failed cause operation => cause.code ++ ": " ++ cause.text ++ ", " ++ operation.text
  | .unremovable path =>
    "Path is a directory: rm returned EISDIR (is a directory) " ++ path
  | .illegalPath path =>
    "The argument 'path' must be a string, Uint8Array, or URL without null bytes. Received " ++
      Text.quoted path

/-- The kind of error that a fault is. -/
def kind : Fault → String
  | .failed .. => "Error"
  | .unremovable _ => "SystemError"
  | .illegalPath _ => "TypeError"

/-- The heading under which a fault is reported: its kind, and its code if the wording does not
begin with it. -/
def heading (e : Fault) : String :=
  match e with
  | .failed .. => e.kind
  | .unremovable _ | .illegalPath _ => e.kind ++ " [" ++ e.code ++ "]"

end Fault
end Disk
end Marginalia
