import Marginalia.Position
import Marginalia.Text.Units
import Marginalia.Text.Basic

/-!
# Line index

The offsets at which the lines of a source start. A newline ends a line and
belongs to it; so does a carriage return before it, which offsets count.
-/

namespace Marginalia

/-- The starting offsets of the lines of a source, and the length of the source. -/
structure LineIndex where
  starts : List Nat
  length : Nat
deriving DecidableEq, Repr

namespace LineIndex

/-- The offsets right after each newline of a text that begins at an offset. -/
def startsAfter : Nat → List Char → List Nat
  | _, [] => []
  | offset, c :: cs =>
    let next := offset + Text.units c
    if c = '\n' then next :: startsAfter next cs else startsAfter next cs

def ofSource (source : List Char) : LineIndex :=
  { starts := 0 :: startsAfter 0 source, length := Text.width source }

variable (index : LineIndex)

def lineCount : Nat := index.starts.length

/-- The offset at which a line starts, counting lines from one. -/
def start? : Number → Option Nat
  | .int line => if 1 ≤ line then index.starts[(line - 1).toNat]? else none
  | _ => none

/-- The offset of a column of the line that starts at an offset, at most the length of the
source. Offsets in the source are exact. -/
def offsetFrom (start : Nat) (column : Number) : Number :=
  match column with
  | .int c =>
    if 0 ≤ start + c then .int (min (start + c) index.length) else .ofInt (start + c)
  | column =>
    let offset := column.addInt start
    if offset < .int index.length then offset else .int index.length

/-- The offset of a position; the position of an unknown line is the end of the source. -/
def offsetOf (p : Position) : Number :=
  match index.start? p.line with
  | some start => index.offsetFrom start p.column
  | none => .int index.length

def span (start stop : Position) : Span :=
  { start, stop, startOffset := index.offsetOf start, endOffset := index.offsetOf stop }

end LineIndex
end Marginalia
