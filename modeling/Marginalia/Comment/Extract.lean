import Marginalia.Comment.Scan
import Marginalia.LineIndex

/-!
# Comments of a source

A source is scanned line by line; a carriage return at the end of a line is no
part of its text. The comments come in reading order.
-/

namespace Marginalia
namespace Comment

/-- The comment that a match on the given line is. -/
def ofMatch (index : LineIndex) (line : Nat) (m : Match) : Comment :=
  { text := m.text
    kind := m.kind
    span := index.span (.ofNat line m.startColumn) (.ofNat line m.endColumn) }

/-- The comments of a list of lines, the first of which has the given number. -/
def ofLines (index : LineIndex) (wanted : Wanted) : Nat → List (List Char) → List Comment
  | _, [] => []
  | number, line :: rest =>
    (scanLine wanted (Text.dropCarriageReturn line)).map (ofMatch index number) ++
      ofLines index wanted (number + 1) rest

def extract (wanted : Wanted) (source : String) : List Comment :=
  ofLines (.ofSource source.toList) wanted 1 (Text.lines source.toList)

end Comment
end Marginalia
