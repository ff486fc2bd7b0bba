import Marginalia.Position

/-!
# Comments

A comment carries its text without delimiters and without blanks at the ends,
its kind, and the span of the whole of it, delimiters included.
-/

namespace Marginalia

namespace Comment

inductive Kind where
  | line
  | block
deriving DecidableEq, Repr, Inhabited

namespace Kind

def name : Kind → String
  | .line => "line"
  | .block => "block"

def all : List Kind := [.line, .block]

def ofName? (s : String) : Option Kind :=
  all.find? fun k => k.name == s

end Kind
end Comment

structure Comment where
  text : String
  kind : Comment.Kind
  span : Span
deriving DecidableEq, Repr, Inhabited

namespace Comment

def start (c : Comment) : Position := c.span.start

/-- Comments in reading order of their starts. -/
def startsNoLater (a b : Comment) : Bool := decide (¬ b.start < a.start)

/-- Comments sorted by their starts; those with one start keep their order. -/
def sort (cs : List Comment) : List Comment := cs.mergeSort startsNoLater

end Comment
end Marginalia
