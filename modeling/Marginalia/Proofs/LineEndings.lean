import Marginalia.Association
import Marginalia.Proofs.Joining

/-!
# Line endings

A carriage return before a newline belongs to the ending of the line: the
scanner does not see it and the offsets count it. So a source whose newlines are
preceded by carriage returns has the same comments in the same places, and each
offset is greater by the number of lines before it.
-/

namespace Marginalia

namespace Text

def withReturns (cs : List Char) : List Char :=
  cs.flatMap fun c => if c = '\n' then ['\r', '\n'] else [c]

theorem withReturns_newline (cs : List Char) :
    withReturns ('\n' :: cs) = '\r' :: '\n' :: withReturns cs := rfl

theorem withReturns_cons {c : Char} (h : c ≠ '\n') (cs : List Char) :
    withReturns (c :: cs) = c :: withReturns cs := by
  simp [withReturns, h]

/-- Lines with a carriage return at the end of each but the last. -/
def endedLines : List (List Char) → List (List Char)
  | [] => []
  | [line] => [line]
  | line :: next :: rest => (line ++ ['\r']) :: endedLines (next :: rest)

theorem lines_withReturns (cs : List Char) : lines (withReturns cs) = endedLines (lines cs) := by
  induction cs with
  | nil => rfl
  | cons c cs ih =>
    obtain ⟨first, rest, hl⟩ := List.exists_cons_of_ne_nil (lines_ne_nil cs)
    rw [hl] at ih
    by_cases hc : c = '\n'
    · subst hc
      rw [withReturns_newline, lines_cons (by decide) (lines_newline _), ih, lines_newline, hl]
      rfl
    · rw [withReturns_cons hc, lines_cons hc hl]
      cases rest with
      | nil => exact lines_cons hc ih
      | cons next rest => exact lines_cons hc ih

theorem dropCarriageReturn_append (line : List Char) :
    dropCarriageReturn (line ++ ['\r']) = line := by
  simp [dropCarriageReturn]

theorem dropCarriageReturn_of_ne {line : List Char} (h : line.getLast? ≠ some '\r') :
    dropCarriageReturn line = line := if_neg h

theorem map_dropCarriageReturn {ls : List (List Char)}
    (h : ∀ line ∈ ls, line.getLast? ≠ some '\r') : ls.map dropCarriageReturn = ls := by
  conv_rhs => rw [← List.map_id ls]
  apply List.map_congr_left
  intro line hline
  exact dropCarriageReturn_of_ne (h line hline)

theorem map_dropCarriageReturn_endedLines {ls : List (List Char)}
    (h : ∀ line ∈ ls, line.getLast? ≠ some '\r') :
    (endedLines ls).map dropCarriageReturn = ls := by
  fun_induction endedLines ls with
  | case1 => rfl
  | case2 line => exact map_dropCarriageReturn h
  | case3 line next rest ih =>
    rw [List.map_cons, dropCarriageReturn_append, ih]
    intro other hother
    exact h other (List.mem_cons_of_mem _ hother)

theorem width_beforeLine_endedLines {ls : List (List Char)} {k : Nat} (h : k < ls.length) :
    width (beforeLine (endedLines ls) k) = width (beforeLine ls k) + k := by
  fun_induction endedLines ls generalizing k with
  | case1 => simp at h
  | case2 line =>
    obtain rfl : k = 0 := by simpa using h
    rfl
  | case3 line next rest ih =>
    cases k with
    | zero => rfl
    | succ k =>
      have hk := ih (k := k) (by simpa using h)
      simp only [beforeLine_cons_succ, width_append, width_cons, width_nil, hk]
      change width line + (1 + 0) + _ = _
      omega

end Text

namespace Association

open Outline

/-- The owner of a comment depends on the two ends of its span only. -/
theorem owner_congr {c d : Comment} (hstart : d.span.start = c.span.start)
    (hstop : d.span.stop = c.span.stop) (policy : Policy) (nodes : List NodeSpan) :
    owner policy nodes d = owner policy nodes c := by
  obtain ⟨text, kind, start, stop, startOffset, endOffset⟩ := c
  obtain ⟨text', kind', start', stop', startOffset', endOffset'⟩ := d
  obtain rfl : start' = start := hstart
  obtain rfl : stop' = stop := hstop
  cases policy with
  | conservative => rfl
  | nearest => rfl

end Association

namespace Comment

open Text

/-- Extraction by lines without their carriage returns. -/
theorem extract_eq_flatMap_plain (wanted : Wanted) (source : String) :
    extract wanted source =
      ((lines source.toList).map dropCarriageReturn).zipIdx.flatMap fun p =>
        (scanLine wanted p.1).map
          (located (p.2 + 1) (width (beforeLine (lines source.toList) p.2))) := by
  rw [extract_eq_flatMap, List.zipIdx_map, List.flatMap_map]
  rfl

/-- A comment of the same text, kind and place as another, with each offset greater by the number of
lines before that one. -/
structure BehindReturns (c d : Comment) : Prop where
  text_eq : d.text = c.text
  kind_eq : d.kind = c.kind
  start_eq : d.span.start = c.span.start
  stop_eq : d.span.stop = c.span.stop
  startOffset_eq : ∃ line offset : Int, c.span.start.line = .int line ∧
    c.span.startOffset = .int offset ∧ d.span.startOffset = .int (offset + (line - 1))
  endOffset_eq : ∃ line offset : Int, c.span.stop.line = .int line ∧
    c.span.endOffset = .int offset ∧ d.span.endOffset = .int (offset + (line - 1))

theorem behindReturns_located (k lineStart : Nat) (m : Match) :
    BehindReturns (located (k + 1) lineStart m) (located (k + 1) (lineStart + k) m) := by
  refine ⟨rfl, rfl, rfl, rfl, ⟨_, _, rfl, rfl, ?_⟩, ⟨_, _, rfl, rfl, ?_⟩⟩
  · simp only [located, Number.int.injEq]
    omega
  · simp only [located, Number.int.injEq]
    omega

/-- If no line of a source ends in a carriage return, then carriage returns before its newlines
change nothing but the offsets of its comments, and every comment keeps its owner. -/
theorem extract_withReturns (wanted : Wanted) {source : String}
    (h : ∀ line ∈ lines source.toList, line.getLast? ≠ some '\r') :
    List.Forall₂
      (fun c d => BehindReturns c d ∧
        ∀ policy nodes, Association.owner policy nodes d = Association.owner policy nodes c)
      (extract wanted source) (extract wanted (String.ofList (withReturns source.toList))) := by
  rw [extract_eq_flatMap_plain, extract_eq_flatMap_plain, String.toList_ofList, lines_withReturns,
    map_dropCarriageReturn_endedLines h, map_dropCarriageReturn h]
  have hsame : List.Forall₂ (fun p q => p = q ∧ p ∈ (lines source.toList).zipIdx)
      (lines source.toList).zipIdx (lines source.toList).zipIdx := by
    rw [List.forall₂_same]
    intro p hp
    exact ⟨rfl, hp⟩
  refine List.rel_flatMap hsame ?_
  rintro p _ ⟨rfl, hp⟩
  have hlt : p.2 < (lines source.toList).length := by
    simpa using List.snd_lt_add_of_mem_zipIdx hp
  dsimp only
  rw [width_beforeLine_endedLines hlt, List.forall₂_map_left_iff, List.forall₂_map_right_iff,
    List.forall₂_same]
  intro m _
  have hbehind := behindReturns_located p.2 (width (beforeLine (lines source.toList) p.2)) m
  refine ⟨hbehind, ?_⟩
  intro policy nodes
  exact Association.owner_congr hbehind.start_eq hbehind.stop_eq policy nodes

/-- A block and two line comments, the last of them on a line without an ending. -/
theorem extract_withReturns_unended :
    let source := "/* a */ // b\n\nx // c"
    (∀ line ∈ lines source.toList, line.getLast? ≠ some '\r') ∧
      (extract .both source).length = 3 ∧
      List.Forall₂
        (fun c d => BehindReturns c d ∧
          ∀ policy nodes, Association.owner policy nodes d = Association.owner policy nodes c)
        (extract .both source) (extract .both "/* a */ // b\r\n\r\nx // c") := by
  intro source
  have hlines : ∀ line ∈ lines source.toList, line.getLast? ≠ some '\r' := by decide
  have hreturns : String.ofList (withReturns source.toList) = "/* a */ // b\r\n\r\nx // c" := by
    decide +kernel
  refine ⟨hlines, by decide +kernel, ?_⟩
  rw [← hreturns]
  exact extract_withReturns .both hlines

end Comment
end Marginalia
