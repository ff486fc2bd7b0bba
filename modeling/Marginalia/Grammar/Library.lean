import Marginalia.Grammar.Node
import Marginalia.Path.Basic

/-!
# The grammar library

A grammar library is started with its runtime, loads a grammar from a file and
parses sources with it. Each of these can fail, with an error or with a bare
text. Its files lie in one of several directories, which are searched in order.
-/

namespace Marginalia
namespace Grammar

/-- How an operation of the library fails. -/
inductive Upset where
  | error (message : String)
  | text (s : String)
deriving DecidableEq, Repr

def Upset.message : Upset → String
  | .error message => message
  | .text s => s

/-- What the library does when it is called. -/
structure Library where
  start : Except Upset Unit
  load : String → Except Upset Unit
  /-- The root of the syntax tree of a source; the library may give up without one. -/
  parse : String → Except Upset (Option Node)

def extensions : List String := [".rs"]

def supports (path : String) : Bool := extensions.contains (Text.lower (Path.extension path))

/-- The files that hold the runtime, in the order of preference. -/
def runtimeFiles : List String :=
  ["web-tree-sitter/tree-sitter.wasm", "web-tree-sitter/web-tree-sitter.wasm"]

def grammarFile : String := "tree-sitter-wasms/out/tree-sitter-rust.wasm"

/-- The names under which the runtime asks for its own file. -/
def ownNames : List String := ["tree-sitter.wasm", "web-tree-sitter.wasm"]

def locateFile (runtime file : String) : String :=
  if ownNames.contains file then runtime else file

/-- The directories to search: beside the package, in the working directory, and in
an installation beside the executable. -/
def searchDirs (packageDir workingDir executable : String) : List String :=
  [Path.join packageDir "node_modules", Path.join workingDir "node_modules",
    Path.join executable "../lib/node_modules/syntree-comments/node_modules"]

end Grammar
end Marginalia
