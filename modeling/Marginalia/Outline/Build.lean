import Marginalia.Grammar.Node
import Marginalia.LineIndex
import Marginalia.Outline.Item
import Marginalia.Text.Blank

/-!
# Outlines from concrete syntax

Each named child of the root becomes an item, attributes and comments apart.
The declaration span of an item is that of its name, or of its keyword where it
has no name; the span of a body block runs from its opening brace to just past
its closing brace. A node of a type that is not modelled keeps its text.
-/

namespace Marginalia
namespace Outline

open Grammar (Node)

/-- The types of nodes at the top level that are no items. -/
def skippedTypes : List String :=
  ["attribute_item", "inner_attribute_item", "line_comment", "block_comment"]

def parameterTypes : List String :=
  ["parameter", "self_parameter", "variadic_parameter"]

section

variable (index : LineIndex)

def spanOf (n : Node) : Span :=
  index.span n.start.position n.stop.position

/-- The declaration site that is the node given, if any. -/
def siteOf (n : Option Node) : Site := .bare (n.map (spanOf index))

def bodyOf (n : Node) : Site := siteOf index (n.child? "body")

end

def isPublic (n : Node) : Bool := (n.childOfType? "visibility_modifier").isSome

/-- Whether a function is asynchronous: one of its modifiers is that word. -/
def isAsync (n : Node) : Bool :=
  (n.childOfType? "function_modifiers").any fun m =>
    (Text.words m.text.toList).contains "async".toList

/-- The parameters of a function: their patterns, or their text where they have none. -/
def paramsOf (n : Node) : List String :=
  match n.child? "parameters" with
  | none => []
  | some list =>
    (list.namedChildren.filter fun p => parameterTypes.contains p.type).map fun p =>
      ((p.child? "pattern").map Node.text).getD p.text

def variantsOf (n : Node) : List String :=
  match n.child? "body" with
  | none => []
  | some body =>
    (body.namedChildren.filter fun c => c.type == "enum_variant").map fun c => c.fieldText "name"

/-- The names of the fields of a structure; the fields of a tuple are numbered. -/
def fieldsOf (n : Node) : List String :=
  match n.child? "body" with
  | none => []
  | some body =>
    if body.type == "field_declaration_list" then
      (body.namedChildren.filter fun c => c.type == "field_declaration").map fun c =>
        c.fieldText "name"
    else
      let fields := body.namedChildren.filter fun c =>
        c.type != "visibility_modifier" && c.type != "attribute_item"
      (List.range fields.length).map toString

/-- What stands between the first two double quotes of a text. -/
def quotedPart? (cs : List Char) : Option (List Char) :=
  match cs.dropWhile (· ≠ '"') with
  | [] => none
  | _ :: rest => if rest.contains '"' then some (rest.takeWhile (· ≠ '"')) else none

def abiOf (n : Node) : Option String :=
  (n.childOfType? "extern_modifier").bind fun m =>
    (quotedPart? m.text.toList).map String.ofList

/-- The item that a node is; a skipped node is none. -/
def Item.ofNode? (index : LineIndex) (n : Node) : Option Item :=
  if skippedTypes.contains n.type then none
  else
    some <|
      match n.type with
      | "function_item" =>
        .fn (n.fieldText "name") (isPublic n) (isAsync n) (paramsOf n)
          (siteOf index (n.child? "name")) (bodyOf index n)
      | "enum_item" =>
        .enum (n.fieldText "name") (isPublic n) (variantsOf n) (siteOf index (n.child? "name"))
      | "struct_item" => .struct (n.fieldText "name") (isPublic n) (fieldsOf n)
      | "trait_item" =>
        .trait (n.fieldText "name") (isPublic n) (siteOf index (n.child? "name")) (bodyOf index n)
      | "impl_item" =>
        .impl (n.fieldText "type") ((n.child? "trait").map Node.text)
          (siteOf index (n.childOfType? "impl")) (bodyOf index n)
      | "use_declaration" => .useDecl (n.fieldText "argument") (siteOf index (n.childOfType? "use"))
      | "const_item" =>
        .constant (n.fieldText "name") (isPublic n) (siteOf index (n.child? "name"))
      | "static_item" =>
        .static (n.fieldText "name") (isPublic n) (n.childOfType? "mutable_specifier").isSome
          (siteOf index (n.child? "name"))
      | "type_item" =>
        .typeAlias (n.fieldText "name") (isPublic n) (siteOf index (n.child? "name"))
      | "union_item" => .union (n.fieldText "name") none
      | "mod_item" => .module (n.fieldText "name") (n.child? "body").isNone
      | "foreign_mod_item" => .foreignModule (abiOf n) none
      | "macro_definition" => .macroItem (n.fieldText "name")
      | "macro_invocation" => .macroItem (n.fieldText "macro")
      | "expression_statement" =>
        match n.namedChildren with
        | [inner] =>
          if inner.type == "macro_invocation" then .macroItem (inner.fieldText "macro")
          else .verbatim n.text
        | _ => .verbatim n.text
      | "extern_crate_declaration" => .externCrate (n.fieldText "name")
      | _ => .verbatim n.text

/-- The outline of the source with the given root node. -/
def build (root : Node) (source : String) : Outline :=
  { items := root.namedChildren.filterMap (Item.ofNode? (.ofSource source.toList))
    comments := none }

end Outline
end Marginalia
