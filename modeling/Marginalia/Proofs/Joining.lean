import Marginalia.Proofs.Extraction

/-!
# Sources joined by a newline

Nothing that one line leaves open reaches the next, and offsets count on from
line to line. So the comments of two sources with a newline between them are
those of the first, and then those of the second, moved by what the first takes
up: its lines, and its width with the newline.
-/

namespace Marginalia

/-- An integer and a natural number together, exactly. Lines and offsets in a source are integers;
another number stays as it is. -/
def Number.plus (k : Nat) : Number → Number
  | .int n => .int (n + k)
  | x => x

/-- As long as the sum is exact in the format, it is the sum of the format. -/
theorem Number.plus_eq_addInt {n : Int} {k : Nat} (h : (n + k).natAbs ≤ twoTo 53) :
    (Number.int n).plus k = (Number.int n).addInt k :=
  (addInt_int h).symm

def Position.down (lines : Nat) (p : Position) : Position := { p with line := p.line.plus lines }

/-- A span further down by some lines and further on by some units. -/
def Span.moved (lines units : Nat) (s : Span) : Span :=
  { start := s.start.down lines
    stop := s.stop.down lines
    startOffset := s.startOffset.plus units
    endOffset := s.endOffset.plus units }

def Comment.moved (lines units : Nat) (c : Comment) : Comment :=
  { c with span := c.span.moved lines units }

namespace Text

theorem beforeLine_append_of_le {ls : List (List Char)} {k : Nat} (h : k ≤ ls.length)
    (ms : List (List Char)) : beforeLine (ls ++ ms) k = beforeLine ls k := by
  rw [beforeLine, List.take_append_of_le_length h]
  rfl

theorem beforeLine_append_length_add (ls ms : List (List Char)) (k : Nat) :
    beforeLine (ls ++ ms) (ls.length + k) = beforeLine ls ls.length ++ beforeLine ms k := by
  simp only [beforeLine, List.take_length_add_append, List.flatMap_append, List.take_length]

theorem beforeLine_lines_length (cs : List Char) :
    beforeLine (lines cs) (lines cs).length = cs ++ ['\n'] := by
  induction cs with
  | nil => rfl
  | cons c cs ih =>
    by_cases hc : c = '\n'
    · rw [hc, lines_newline, List.length_cons, beforeLine_cons_succ, ih]
      rfl
    · obtain ⟨first, rest, hl⟩ := List.exists_cons_of_ne_nil (lines_ne_nil cs)
      rw [hl, List.length_cons, beforeLine_cons_succ] at ih
      rw [lines_cons hc hl, List.length_cons, beforeLine_cons_succ, List.cons_append, ih]
      rfl

theorem width_beforeLine_lines_length (cs : List Char) :
    width (beforeLine (lines cs) (lines cs).length) = width cs + 1 := by
  rw [beforeLine_lines_length, width_append]
  rfl

end Text

namespace Comment

open Text

/-- The comment that a match is on the line with the given number, which starts at the given
offset. -/
def located (number lineStart : Nat) (m : Match) : Comment :=
  { text := m.text
    kind := m.kind
    span :=
      { start := .ofNat number m.startColumn
        stop := .ofNat number m.endColumn
        startOffset := .int (lineStart + m.startColumn : Nat)
        endOffset := .int (lineStart + m.endColumn : Nat) } }

theorem located_add (lines units number lineStart : Nat) (m : Match) :
    located (lines + number) (units + lineStart) m =
      (located number lineStart m).moved lines units := by
  simp only [located, moved, Span.moved, Position.down, Position.ofNat, Number.plus]
  congr 4 <;> push_cast <;> ring

/-- Inside its line a match has the offsets that the start of the line gives. -/
theorem ofMatch_eq_located {source line : List Char} {k : Nat} {m : Match}
    (h : (lines source)[k]? = some line) (hstart : m.startColumn ≤ width line)
    (hend : m.endColumn ≤ width line) :
    ofMatch (.ofSource source) (k + 1) m =
      located (k + 1) (width (beforeLine (lines source) k)) m := by
  simp only [ofMatch, located, LineIndex.span, LineIndex.offsetOf_ofNat h hstart,
    LineIndex.offsetOf_ofNat h hend]

/-- The comments of the line at an index, when the given text stands before it. -/
def ofLine (wanted : Wanted) (before : List Char) (p : List Char × Nat) : List Comment :=
  (scanLine wanted (dropCarriageReturn p.1)).map (located (p.2 + 1) (width before))

/-- Extraction without an index of the source: each line by itself, behind the lines before it. -/
theorem extract_eq_flatMap (wanted : Wanted) (source : String) :
    extract wanted source = (lines source.toList).zipIdx.flatMap fun p =>
      ofLine wanted (beforeLine (lines source.toList) p.2) p := by
  rw [extract, ofLines_eq_flatMap, List.zipIdx_succ, List.flatMap_map]
  apply List.flatMap_congr
  intro p hp
  have hline : (lines source.toList)[p.2]? = some p.1 := List.mk_mem_zipIdx_iff_getElem?.mp hp
  apply List.map_congr_left
  intro m hm
  obtain ⟨before, inner, after, hstands⟩ := standsOn_of_mem_scanLine hm
  have hend : m.endColumn ≤ width p.1 :=
    hstands.endColumn_le.trans (width_dropCarriageReturn_le p.1)
  exact ofMatch_eq_located hline (hstands.startColumn_lt.le.trans hend) hend

/-- The comments of two sources joined by a newline are those of the first and then those of the
second, moved by the lines of the first and by its width and the newline. -/
theorem extract_join (wanted : Wanted) (a b : String) :
    extract wanted (a ++ "\n" ++ b) = extract wanted a ++
      (extract wanted b).map (moved (lines a.toList).length (width a.toList + 1)) := by
  have hlines : lines (a ++ "\n" ++ b).toList = lines a.toList ++ lines b.toList := by
    rw [String.toList_append, String.toList_append, List.append_assoc]
    exact List.splitOn_append_cons_self _ _
  rw [extract_eq_flatMap, hlines, List.zipIdx_append, List.flatMap_append]
  congr 1
  · rw [extract_eq_flatMap]
    apply List.flatMap_congr
    intro p hp
    have hlt : p.2 < (lines a.toList).length := by
      simpa using List.snd_lt_add_of_mem_zipIdx hp
    rw [beforeLine_append_of_le hlt.le]
  · rw [extract_eq_flatMap, List.zipIdx_eq_map_add, List.flatMap_map, List.map_flatMap]
    apply List.flatMap_congr
    intro p _
    rw [ofLine, ofLine, List.map_map]
    apply List.map_congr_left
    intro m _
    dsimp only
    rw [Nat.zero_add, beforeLine_append_length_add, width_append, width_beforeLine_lines_length,
      Nat.add_assoc, located_add]
    rfl

end Comment
end Marginalia
