import Marginalia.Json.Writer
import Marginalia.Outline.NodeSpan

/-!
# Outlines as JSON

An item is an object with its kind first, then its own fields in the order of
their names, then its span, its comments and its body block. Empty lists of
comments are not written. The compact form leaves out every span.
-/

namespace Marginalia

def Position.toJson (p : Position) : Json :=
  .obj [("line", .num p.line), ("column", .num p.column)]

def Span.toJson (s : Span) : Json :=
  .obj [("startLine", .num s.start.line), ("startColumn", .num s.start.column),
    ("endLine", .num s.stop.line), ("endColumn", .num s.stop.column),
    ("startOffset", .num s.startOffset), ("endOffset", .num s.endOffset)]

namespace Comment

/-- A comment; the compact form has no span. -/
def toJson (compact : Bool) (c : Comment) : Json :=
  .obj ([("text", .str c.text), ("kind", .str c.kind.name)] ++
    if compact then [] else [("span", c.span.toJson)])

end Comment

namespace Outline

def NodeSpan.toJson (n : NodeSpan) : Json :=
  .obj [("identifier", .str n.identifier), ("span", n.span.toJson)]

def spanMember (compact : Bool) (span : Option Span) : Json.Members :=
  if compact then [] else (span.map fun s => ("span", s.toJson)).toList

/-- The member for a list of comments, if there is one and it is not empty. -/
def commentsMember (compact : Bool) (comments : Option (List Comment)) : Json.Members :=
  match comments with
  | none | some [] => []
  | some cs => [("comments", .arr (cs.map (Comment.toJson compact)))]

def Site.members (compact : Bool) (s : Site) : Json.Members :=
  spanMember compact s.span ++ commentsMember compact s.comments

def blockMember (compact : Bool) (body : Site) : Json.Members :=
  [("block", .obj (body.members compact))]

def texts (xs : List String) : Json := .arr (xs.map .str)

namespace Item

/-- The own fields of an item, in the order of their names. -/
def ownMembers : Item → Json.Members
  | .fn name isPublic isAsync params _ _ =>
    [("isAsync", .bool isAsync), ("isPublic", .bool isPublic), ("name", .str name),
      ("params", texts params)]
  | .enum name isPublic variants _ =>
    [("isPublic", .bool isPublic), ("name", .str name), ("variants", texts variants)]
  | .struct name isPublic fields =>
    [("fields", texts fields), ("isPublic", .bool isPublic), ("name", .str name)]
  | .trait name isPublic _ _ => [("isPublic", .bool isPublic), ("name", .str name)]
  | .impl selfType traitName _ _ =>
    ("selfType", .str selfType) :: (traitName.map fun t => ("traitName", Json.str t)).toList
  | .useDecl path _ => [("path", .str path)]
  | .constant name isPublic _ => [("isPublic", .bool isPublic), ("name", .str name)]
  | .static name isPublic isMutable _ =>
    [("isMutable", .bool isMutable), ("isPublic", .bool isPublic), ("name", .str name)]
  | .typeAlias name isPublic _ => [("isPublic", .bool isPublic), ("name", .str name)]
  | .union name _ => [("name", .str name)]
  | .module name isExternal => [("isExternal", .bool isExternal), ("name", .str name)]
  | .foreignModule abi _ => (abi.map fun a => ("abi", Json.str a)).toList
  | .macroItem name => [("name", .str name)]
  | .externCrate name => [("name", .str name)]
  | .verbatim text => [("text", .str text)]

def members (compact : Bool) (i : Item) : Json.Members :=
  ("kind", .str i.kind.name) :: i.ownMembers ++ spanMember compact i.span? ++
    commentsMember compact i.comments? ++ (i.body?.map (blockMember compact)).getD []

def toJson (compact : Bool) (i : Item) : Json := .obj (i.members compact)

end Item

def toJson (compact : Bool) (f : Outline) : Json :=
  .obj (("items", .arr (f.items.map (Item.toJson compact))) :: commentsMember compact f.comments)

structure Format where
  compact : Bool
  pretty : Bool
deriving DecidableEq, Repr

/-- All spans, on one line. -/
def Format.plain : Format := { compact := false, pretty := false }

def toText (format : Format) (f : Outline) : String :=
  (f.toJson format.compact).render format.pretty

end Outline
end Marginalia
