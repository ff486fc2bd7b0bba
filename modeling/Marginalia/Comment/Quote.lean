import Marginalia.Number.Basic
import Marginalia.Text.Units

/-!
# Quoted regions of a line

A single or a double quote opens a region that the same quote closes. Inside a
region a backslash takes the next character literally. A region never goes on
to the next line.
-/

namespace Marginalia
namespace Comment

/-- What the characters of a line so far leave open: the quote of the region,
and whether a backslash awaits its character. -/
structure Quote where
  opened : Option Char
  escaped : Bool
deriving DecidableEq, Repr

namespace Quote

/-- The state at the beginning of a line. -/
def outside : Quote := { opened := none, escaped := false }

def isQuote (c : Char) : Bool := c = '"' || c = '\x27'

def step (q : Quote) (c : Char) : Quote :=
  if isQuote c && !q.escaped then
    match q.opened with
    | none => { opened := some c, escaped := false }
    | some o => if c = o then outside else { opened := some o, escaped := false }
  else if c = '\\' && q.opened.isSome then { q with escaped := !q.escaped }
  else { q with escaped := false }

def after (q : Quote) (cs : List Char) : Quote := cs.foldl step q

@[simp] theorem after_nil (q : Quote) : q.after [] = q := rfl

@[simp] theorem after_cons (q : Quote) (c : Char) (cs : List Char) :
    q.after (c :: cs) = (q.step c).after cs := rfl

theorem after_append (q : Quote) (a b : List Char) : q.after (a ++ b) = (q.after a).after b := by
  simp [after]

def isInside (q : Quote) : Bool := q.opened.isSome

end Quote

/-- Whether the given column of a line lies in a quoted region. -/
def isQuoted (line : List Char) (column : Number) : Bool :=
  (Quote.outside.after (Text.takeWidth (column.countBelow (Text.width line)) line)).isInside

end Comment
end Marginalia
