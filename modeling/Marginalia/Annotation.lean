import Marginalia.Association
import Marginalia.Comment.Extract

/-!
# Annotation of an outline

Annotation extracts the comments of a source, matches them with the nodes of
the outline and writes them into it: each item and each body block takes the
comments under its identifier in place of those it had, and the file takes the
comments that no item took, in reading order.

Whether a comment was taken is decided by occurrence and not by its looks, so
applying groups is stated for any type of occurrences with a comment for each.
-/

namespace Marginalia
namespace Annotation

open Outline Association

structure Tally where
  attached : Nat
  uncarried : Nat
  residual : Nat
deriving DecidableEq, Repr

section Apply

variable {α : Type} [DecidableEq α] (view : α → Comment) (groups : Groups α)

/-- The occurrences that an item takes for itself. -/
def ownShare (index : Nat) (i : Item) : List α :=
  if i.holdsComments then (groups.get? (Identifier.item index)).getD [] else []

/-- The occurrences that the body block of an item takes. -/
def bodyShare (index : Nat) (i : Item) : List α :=
  if i.body?.isSome then (groups.get? (Identifier.block (Identifier.item index))).getD [] else []

/-- The occurrences that are matched with an item which cannot hold comments. -/
def refused (index : Nat) (i : Item) : List α :=
  if i.holdsComments then [] else (groups.get? (Identifier.item index)).getD []

/-- An item with the comments under its identifiers in place of its own. -/
def applyItem (index : Nat) (i : Item) : Item :=
  (i.setComments (nonEmpty ((ownShare groups index i).map view))).setBodyComments
    (nonEmpty ((bodyShare groups index i).map view))

def applyFrom : Nat → List Item → List Item
  | _, [] => []
  | index, i :: rest => applyItem view groups index i :: applyFrom (index + 1) rest

/-- The occurrences that a list of items takes, item by item. -/
def takenFrom : Nat → List Item → List α
  | _, [] => []
  | index, i :: rest =>
    ownShare groups index i ++ bodyShare groups index i ++ takenFrom (index + 1) rest

def refusedFrom : Nat → List Item → List α
  | _, [] => []
  | index, i :: rest => refused groups index i ++ refusedFrom (index + 1) rest

/-- Writes groups into an outline. The comments `all` that no item takes become
those of the file. -/
def apply (f : Outline) (all : List α) : Outline × Tally :=
  let taken := takenFrom groups 0 f.items
  let residual := Comment.sort ((all.filter fun a => !taken.contains a).map view)
  ({ items := applyFrom view groups 0 f.items, comments := nonEmpty residual },
    { attached := taken.eraseDups.length
      uncarried := (refusedFrom groups 0 f.items).length
      residual := residual.length })

end Apply

/-- How to annotate: the policy and the kinds of comments. -/
structure Options where
  policy : Policy
  wanted : Comment.Wanted
deriving DecidableEq, Repr

def Options.preferred : Options := { policy := .preferred, wanted := .both }

structure Stats where
  comments : Nat
  nodeSpans : Nat
  tally : Tally
deriving DecidableEq, Repr

def annotate (options : Options) (f : Outline) (source : String) : Outline × Stats :=
  let comments := Comment.extract options.wanted source
  let nodes := f.nodeSpans
  let applied := apply id (associate options.policy nodes comments).groups f comments
  (applied.1, { comments := comments.length, nodeSpans := nodes.length, tally := applied.2 })

end Annotation
end Marginalia
