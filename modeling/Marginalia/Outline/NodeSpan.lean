import Marginalia.Outline.Identifier
import Marginalia.Outline.Item
import Marginalia.Text.Units

/-!
# Spans of the nodes of an outline

A node is a declaration or a body block whose span is known. Nodes come item by
item, a declaration before its own block; an item without spans contributes none.
-/

namespace Marginalia
namespace Outline

/-- The span of a node, under the identifier of the node. -/
structure NodeSpan where
  identifier : String
  span : Span
deriving DecidableEq, Repr, Inhabited

def Item.nodeSpans (index : Nat) (i : Item) : List NodeSpan :=
  (i.span?.map fun s => ⟨Identifier.item index, s⟩).toList ++
    (i.bodySpan?.map fun s => ⟨Identifier.block (Identifier.item index), s⟩).toList

/-- The nodes of a list of items, the first of which has the given index. -/
def nodeSpansFrom : Nat → List Item → List NodeSpan
  | _, [] => []
  | index, i :: rest => i.nodeSpans index ++ nodeSpansFrom (index + 1) rest

def nodeSpans (f : Outline) : List NodeSpan := nodeSpansFrom 0 f.items

def spanlessCount (f : Outline) : Nat := f.items.countP fun i => i.span?.isNone

/-- The label of the item that an identifier names; a question mark if there is none. -/
def labelOf (f : Outline) (id : String) : String :=
  match (Identifier.itemIndex? id).bind fun n => f.items[n]? with
  | some i => i.label
  | none => "?"

end Outline
end Marginalia
