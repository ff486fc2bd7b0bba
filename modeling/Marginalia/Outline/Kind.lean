/-!
# Kinds of items

The kinds of top-level items of a Rust source, and what an item of each kind
can carry: the span of its declaration, a list of comments, a body block.
-/

namespace Marginalia
namespace Outline

inductive Kind where
  | fn
  | enum
  | struct
  | trait
  | impl
  | useDecl
  | constant
  | static
  | typeAlias
  | union
  | module
  | foreignModule
  | macroItem
  | externCrate
  | verbatim
deriving DecidableEq, Repr, Inhabited

structure Capabilities where
  span : Bool
  comments : Bool
  block : Bool
deriving DecidableEq, Repr

namespace Kind

def all : List Kind :=
  [.fn, .enum, .struct, .trait, .impl, .useDecl, .constant, .static, .typeAlias, .union,
   .module, .foreignModule, .macroItem, .externCrate, .verbatim]

/-- The name of a kind in serialized trees. -/
def name : Kind → String
  | .fn => "fn"
  | .enum => "enum"
  | .struct => "struct"
  | .trait => "trait"
  | .impl => "impl"
  | .useDecl => "use"
  | .constant => "const"
  | .static => "static"
  | .typeAlias => "type"
  | .union => "union"
  | .module => "mod"
  | .foreignModule => "foreignMod"
  | .macroItem => "macro"
  | .externCrate => "externCrate"
  | .verbatim => "verbatim"

def ofName? (s : String) : Option Kind :=
  all.find? fun k => k.name == s

theorem ofName?_name (k : Kind) : ofName? k.name = some k := by
  cases k <;> decide

/-- The capability table. -/
def capabilities : Kind → Capabilities
  | .fn | .trait | .impl => ⟨true, true, true⟩
  | .enum | .useDecl | .constant | .static | .typeAlias => ⟨true, true, false⟩
  | .union | .foreignModule => ⟨false, true, false⟩
  | .struct | .module | .macroItem | .externCrate | .verbatim => ⟨false, false, false⟩

end Kind
end Outline
end Marginalia
