import Marginalia.Outline.NodeSpan

/-!
# Association of comments with nodes

Every comment is matched on its own against the nodes of an outline and has at
most one owner. Under the conservative policy the owner is the first block that
the comment is strictly inside, or else the first declaration that the comment
trails on its last line or follows on a line before its block. Under the
nearest policy it is the smallest node that contains the start of the comment
and begins or ends on its line, or else the leftmost node on the next line, or
else the smallest node that contains the start.
-/

namespace Marginalia
namespace Association

open Outline

inductive Policy where
  | conservative
  | nearest
deriving DecidableEq, Repr, Inhabited

namespace Policy

def all : List Policy := [.conservative, .nearest]

def name : Policy → String
  | .conservative => "conservative"
  | .nearest => "nearest"

def ofName? (s : String) : Option Policy :=
  all.find? fun p => p.name == s

/-- The policy in force where none is chosen. -/
def preferred : Policy := .conservative

end Policy

/-- A comment that starts strictly between the two ends of a block. -/
def isInsideBlock (c : Comment) (block : Span) : Bool :=
  decide (block.start < c.start) && decide (c.start < block.stop)

/-- A comment that trails a declaration on its last line, or stands on a line
between the declaration and the first line of its block. -/
def isOnDeclaration (c : Comment) (declaration : Span) (block : Option Span) : Bool :=
  if c.start.line = declaration.stop.line then
    decide (declaration.stop.column ≤ c.start.column)
  else
    block.any fun b =>
      decide (declaration.stop.line < c.start.line) && decide (c.start.line < b.start.line)

/-- The span of the first node with the given identifier. -/
def spanOf (nodes : List NodeSpan) (id : String) : Option Span :=
  (nodes.find? fun n => n.identifier == id).map NodeSpan.span

def conservativeOwner (nodes : List NodeSpan) (c : Comment) : Option NodeSpan :=
  let inside := nodes.find? fun n => Identifier.isBlock n.identifier && isInsideBlock c n.span
  inside.or <| nodes.find? fun n =>
    !Identifier.isBlock n.identifier &&
      isOnDeclaration c n.span (spanOf nodes (Identifier.block n.identifier))

def narrower (a b : Span) : Bool :=
  match a.columnWidth, b.columnWidth with
  | some v, some w => decide (v < w)
  | _, _ => false

/-- Fewer lines, or as many lines and fewer columns. -/
def smaller (a b : Span) : Bool :=
  match a.lineCount, b.lineCount with
  | some m, some n => decide (m < n) || (decide (m = n) && narrower a b)
  | _, _ => false

/-- The first element of a list that no other comes before. -/
def first (before : NodeSpan → NodeSpan → Bool) : List NodeSpan → Option NodeSpan
  | [] => none
  | n :: ns => some (ns.foldl (fun best m => if before m best then m else best) n)

/-- The smallest of the nodes, the first one of equally small ones. -/
def smallest (nodes : List NodeSpan) : Option NodeSpan :=
  first (fun a b => smaller a.span b.span) nodes

/-- The node furthest to the left, the first one of those in one column. -/
def leftmost (nodes : List NodeSpan) : Option NodeSpan :=
  first (fun a b => decide (a.span.start.column < b.span.start.column)) nodes

/-- A node that begins or ends on the line of a comment and contains its start. -/
def sharesLine (c : Comment) (n : NodeSpan) : Bool :=
  (decide (n.span.start.line = c.start.line) || decide (n.span.stop.line = c.start.line)) &&
    n.span.contains c.start

/-- A node that begins on the line after a comment. -/
def isBelow (c : Comment) (n : NodeSpan) : Bool :=
  decide (n.span.start.line = c.span.stop.line.addInt 1)

def nearestOwner (nodes : List NodeSpan) (c : Comment) : Option NodeSpan :=
  (smallest (nodes.filter (sharesLine c))).or <|
    (leftmost (nodes.filter (isBelow c))).or <|
      smallest (nodes.filter fun n => n.span.contains c.start)

/-- The identifier of the node that a comment belongs to. -/
def owner (policy : Policy) (nodes : List NodeSpan) (c : Comment) : Option String :=
  (match policy with
    | .conservative => conservativeOwner nodes c
    | .nearest => nearestOwner nodes c).map NodeSpan.identifier

/-- Lists under identifiers, in the order in which the identifiers first came. -/
abbrev Groups (α : Type) := List (String × List α)

namespace Groups

variable {α : Type}

def get? (groups : Groups α) (id : String) : Option (List α) := groups.lookup id

/-- Adds an element at the end of the list under an identifier. -/
def push (groups : Groups α) (id : String) (a : α) : Groups α :=
  match groups with
  | [] => [(id, [a])]
  | (key, as) :: rest =>
    if key = id then (key, as ++ [a]) :: rest else (key, as) :: push rest id a

def put (groups : Groups α) (id : String) (as : List α) : Groups α :=
  match groups with
  | [] => [(id, as)]
  | (key, old) :: rest =>
    if key = id then (key, as) :: rest else (key, old) :: put rest id as

/-- The groups that a list of pairs denotes: a later list under an identifier replaces
an earlier one. -/
def ofList (pairs : List (String × List α)) : Groups α :=
  pairs.foldl (fun groups p => put groups p.1 p.2) []

end Groups

structure Result where
  groups : Groups Comment
  unclaimed : List Comment
deriving Repr

def Result.add (policy : Policy) (nodes : List NodeSpan) (r : Result) (c : Comment) : Result :=
  match owner policy nodes c with
  | some id => { r with groups := r.groups.push id c }
  | none => { r with unclaimed := r.unclaimed ++ [c] }

def associate (policy : Policy) (nodes : List NodeSpan) (cs : List Comment) : Result :=
  cs.foldl (Result.add policy nodes) { groups := [], unclaimed := [] }

end Association
end Marginalia
