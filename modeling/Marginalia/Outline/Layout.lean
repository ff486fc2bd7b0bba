import Marginalia.Outline.Encode

/-!
# Layout of open documents

A document that describes an outline may carry fields of other tools. Laying it
out brings it into the order in which outlines are written: strings, truth
values and lists of strings are kept under any name but a reserved one, a span
is kept for any kind, comments and a body block only for the kinds that can have
them, and everything else is dropped.
-/

namespace Marginalia
namespace Outline
namespace Layout

/-- The names that are not fields of an item's own. -/
def structural : List String := ["kind", "span", "comments", "block"]

/-- A name that no object can carry as a field. -/
def reserved : String := "__proto__"

def field? : Json → Option Json
  | .str s => some (.str s)
  | .bool b => some (.bool b)
  | .arr vs => some (.arr (vs.filter fun v => v matches .str _))
  | _ => none

def pick (v : Json) (name : String) : Json.Members :=
  ((v.get? name).map fun x => (name, x)).toList

def span (v : Json) : Json :=
  .obj (["startLine", "startColumn", "endLine", "endColumn", "startOffset", "endOffset"].flatMap
    (pick v))

def spanMember (compact : Bool) (v : Json) : Json.Members :=
  match v.get? "span" with
  | some x => if !compact && x.isSet then [("span", span x)] else []
  | none => []

def comment (compact : Bool) (v : Json) : Json :=
  .obj (pick v "text" ++ pick v "kind" ++ spanMember compact v)

def commentsMember (compact : Bool) (v : Json) : Json.Members :=
  match v.get? "comments" with
  | some (.arr (c :: cs)) => [("comments", .arr ((c :: cs).map (comment compact)))]
  | _ => []

def block (compact : Bool) (v : Json) : Json :=
  .obj (spanMember compact v ++ commentsMember compact v)

/-- What an item of the kind named in a document can carry. -/
def capabilities (v : Json) : Capabilities :=
  match v.get? "kind" with
  | some (.str s) => ((Kind.ofName? s).map Kind.capabilities).getD ⟨false, false, false⟩
  | _ => ⟨false, false, false⟩

def isFieldName (name : String) : Bool := !structural.contains name && name != reserved

/-- The own fields of an item, sorted by name. -/
def ownMembers (ms : Json.Members) : Json.Members :=
  ((ms.filter fun m => isFieldName m.1).mergeSort fun a b => Text.nameLE a.1 b.1).filterMap
    fun m => (field? m.2).map fun x => (m.1, x)

def item (compact : Bool) (v : Json) : Json :=
  let own := match v with
    | .obj ms => ownMembers ms
    | _ => []
  let can := capabilities v
  .obj (Json.Members.ofList (pick v "kind" ++ own ++ spanMember compact v ++
    (if can.comments then commentsMember compact v else []) ++
    (if can.block then [("block", block compact ((v.get? "block").getD (.obj [])))] else [])))

/-- A document in the order in which outlines are written. -/
def document (compact : Bool) (v : Json) : Json :=
  let items := match v.get? "items" with
    | some (.arr vs) => vs.map (item compact)
    | _ => []
  .obj (("items", .arr items) :: commentsMember compact v)

def text (format : Format) (v : Json) : String :=
  (document format.compact v).render format.pretty

end Layout
end Outline
end Marginalia
