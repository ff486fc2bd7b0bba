import Marginalia.Path.Basic

/-!
# Paths as seen from a place

Relative paths start at a working directory, and a tilde stands for the home
directory. Here paths are brought into a normal form, compared by containment
and shortened for messages.
-/

namespace Marginalia

structure Place where
  workingDir : String
  home : String
deriving DecidableEq, Repr, Inhabited

namespace Place

variable (here : Place)

def resolve (p : String) : String := Path.resolve here.workingDir p

def isSeparator (c : Char) : Bool := c = '\\' || c = '/'

/-- The absolute path of a path, without separators at its end; the root stays. -/
def normalize (p : String) : String :=
  let whole := here.resolve p
  if whole = "/" then whole
  else String.ofList (whole.toList.reverse.dropWhile isSeparator).reverse

/-- A path with every backslash turned into a slash. -/
def slashed (p : String) : String :=
  String.ofList (p.toList.map fun c => if c = '\\' then '/' else c)

def relativeTo (target base : String) : String :=
  slashed (Path.relative here.workingDir (here.normalize base) (here.normalize target))

/-- Whether a target is a directory or lies below it. -/
def isWithin (target directory : String) : Bool :=
  let target := here.normalize target
  let directory := here.normalize directory
  target == directory ||
    Text.startsWith (if Text.endsWith "/" directory then directory else directory ++ "/") target

/-- A path with the home directory in place of the tilde at its beginning. -/
def expandTilde (p : String) : String :=
  if Text.startsWith "~" p then Path.join here.home (Text.dropFirst 1 p) else p

def settingsName : String := "syntree-comments.json"

def settingsFile (directory : String) : String :=
  Path.join (here.normalize directory) settingsName

/-- A path as it is shown in messages: relative to the home directory if it lies in it, or else
normalized. -/
def display (p : String) : String :=
  if p.isEmpty then "<unknown>"
  else if here.isWithin p here.home then "~/" ++ here.relativeTo p here.home
  else slashed (here.normalize p)

/-- A path as it is shown in messages about a base: relative to the base if it lies in it. -/
def displayFrom (base p : String) : String :=
  if !p.isEmpty && !base.isEmpty && here.isWithin p base then "./" ++ here.relativeTo p base
  else here.display p

end Place
end Marginalia
