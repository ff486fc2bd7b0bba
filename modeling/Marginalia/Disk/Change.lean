import Marginalia.Disk.Basic

/-!
# Changes of a disk

What has to be done to a disk to bring it from one state to another.
-/

namespace Marginalia
namespace Disk

inductive Change where
  | makeDir (path : String)
  | writeFile (path content : String)
  | removeFile (path : String)
deriving DecidableEq, Repr

def arrival? (before : Disk) (x : Key × Entry) : Option Change :=
  if before.entry? x.1 = some x.2 then none
  else
    match x.2 with
    | .directory => some (.makeDir (pathOf x.1))
    | .file content => some (.writeFile (pathOf x.1) content)

/-- What is no longer at a place. -/
def departure? (after : Disk) (x : Key × Entry) : Option Change :=
  match x.2, after.entry? x.1 with
  | .file _, none => some (.removeFile (pathOf x.1))
  | _, _ => none

/-- The changes that lead from one disk to another. -/
def changes (before after : Disk) : List Change :=
  before.entries.filterMap (departure? after) ++ after.entries.filterMap (arrival? before)

end Disk
end Marginalia
