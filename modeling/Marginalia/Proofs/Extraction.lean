import Marginalia.Comment.Extract
import Marginalia.Proofs.Numbered
import Marginalia.Proofs.Scan

/-!
# Extracted comments denote their source text

Columns are counted on a line without its carriage return, offsets come from
the index of the whole source. The two meet in the source: the stretch between
the offsets of a comment is the comment, delimiters included, and comments come
in the order of their offsets without overlaps.
-/

namespace Marginalia
namespace Comment

open Text

/-- A comment is written in a source: on the line with the given number, which starts at the given
offset, between two of its columns, with the given text in its delimiters. -/
structure WrittenIn (c : Comment) (source : List Char) (number : Nat) (line : List Char)
    (lineStart startColumn endColumn : Nat) (inner : List Char) : Prop where
  number_pos : 1 ≤ number
  number_le : number ≤ (lines source).length
  line_eq : (lines source)[number - 1]? = some line
  lineStart_eq : (LineIndex.ofSource source).start? (.int number) = some lineStart
  start_eq : c.span.start = .ofNat number startColumn
  stop_eq : c.span.stop = .ofNat number endColumn
  startColumn_lt : startColumn < endColumn
  startOffset_eq : c.span.startOffset = .int (lineStart + startColumn : Nat)
  endOffset_eq : c.span.endOffset = .int (lineStart + endColumn : Nat)
  slice_eq : (encode source).extract (lineStart + startColumn) (lineStart + endColumn) =
    encode (c.kind.delimit inner)
  oneLine : '\n' ∉ c.kind.delimit inner
  unquoted : isQuoted (dropCarriageReturn line) (.int startColumn) = false
  text_eq : c.text = String.ofList (trim inner)
  reachesEnd : c.kind = .line → endColumn = width (dropCarriageReturn line)
  closesFirst : c.kind = .block → ∀ k, 2 ≤ k → (c.kind.delimit inner)[k]? = some '*' →
    (c.kind.delimit inner)[k + 1]? = some '/' → k + 2 = (c.kind.delimit inner).length

/-- A comment that ends before another begins, in positions and in offsets. -/
def EndsBefore (c d : Comment) : Prop :=
  c.span.stop ≤ d.span.start ∧ c.span.endOffset ≤ d.span.startOffset

theorem dropCarriageReturn_prefix (line : List Char) :
    ∃ ending, line = dropCarriageReturn line ++ ending := by
  unfold dropCarriageReturn
  split_ifs with h
  · exact ⟨['\r'], (List.dropLast_append_getLast? _ h).symm⟩
  · exact ⟨[], (List.append_nil line).symm⟩

theorem width_dropCarriageReturn_le (line : List Char) :
    width (dropCarriageReturn line) ≤ width line := by
  obtain ⟨ending, h⟩ := dropCarriageReturn_prefix line
  have hw := congrArg width h
  rw [width_append] at hw
  omega

theorem writtenIn_ofMatch {source line before inner after : List Char} {k : Nat} {m : Match}
    (h : (lines source)[k]? = some line)
    (hm : m.StandsOn (dropCarriageReturn line) before inner after) :
    (ofMatch (.ofSource source) (k + 1) m).WrittenIn source (k + 1) line
      (width (beforeLine (lines source) k)) m.startColumn m.endColumn inner := by
  obtain ⟨rest, hs⟩ := exists_eq_beforeLine_append h
  obtain ⟨ending, he⟩ := dropCarriageReturn_prefix line
  have hle : m.endColumn ≤ width line :=
    Nat.le_trans hm.endColumn_le (width_dropCarriageReturn_le line)
  have hlt := hm.startColumn_lt
  have hsub : ∀ c ∈ m.kind.delimit inner, c ∈ line := by
    intro c hc
    rw [he, hm.line_eq]
    simp [hc]
  refine ⟨by omega, ?_, h, LineIndex.start?_ofSource h, rfl, rfl, hlt, ?_, ?_, ?_, ?_,
    hm.isQuoted_eq, hm.text_eq, ?_, ?_⟩
  · exact (List.getElem?_eq_some_iff.mp h).1
  · exact LineIndex.offsetOf_ofNat h (by omega)
  · exact LineIndex.offsetOf_ofNat h hle
  · rw [hm.startColumn_eq, hm.endColumn_eq, ← Nat.add_assoc, ← width_append]
    have hsource : source = (beforeLine (lines source) k ++ before) ++
        (m.kind.delimit inner ++ (after ++ ending ++ rest)) := by
      rw [hm.line_eq] at he
      rw [he] at hs
      simpa using hs
    have hx := extract_encode (beforeLine (lines source) k ++ before) (m.kind.delimit inner)
      (after ++ ending ++ rest)
    rw [← hsource] at hx
    exact hx
  · exact fun hn => newline_notMem_of_mem_lines (List.mem_of_getElem? h) (hsub _ hn)
  · intro hk
    have hends := hm.ends
    rw [show m.kind = .line from hk] at hends
    obtain rfl : after = [] := hends
    rw [hm.endColumn_eq, hm.line_eq, List.append_nil, width_append]
  · intro hk
    have hends := hm.ends
    rw [show m.kind = .block from hk] at hends
    rw [show (ofMatch (.ofSource source) (k + 1) m).kind = .block from hk]
    exact hends

/-- Extraction goes through the numbered lines. -/
theorem ofLines_eq_flatMap (index : LineIndex) (wanted : Wanted) (number : Nat)
    (ls : List (List Char)) :
    ofLines index wanted number ls = (ls.zipIdx number).flatMap fun p =>
      (scanLine wanted (dropCarriageReturn p.1)).map (ofMatch index p.2) := by
  induction ls generalizing number with
  | nil => rfl
  | cons line rest ih => rw [ofLines, ih, List.zipIdx_cons, List.flatMap_cons]

/-- A match on a numbered line becomes a comment that is written there and ends on that line. -/
theorem writtenIn_of_mem_scanLine {wanted : Wanted} {source : List Char} {p : List Char × Nat}
    {m : Match} (hp : p ∈ (lines source).zipIdx 1)
    (hm : m ∈ scanLine wanted (dropCarriageReturn p.1)) :
    m.endColumn ≤ width p.1 ∧
      ∃ inner, (ofMatch (.ofSource source) p.2 m).WrittenIn source p.2 p.1
        (width (beforeLine (lines source) (p.2 - 1))) m.startColumn m.endColumn inner := by
  obtain ⟨k, hk, hline⟩ := exists_of_mem_zipIdx_one hp
  obtain ⟨before, inner, after, hs⟩ := standsOn_of_mem_scanLine hm
  refine ⟨Nat.le_trans hs.endColumn_le (width_dropCarriageReturn_le p.1), inner, ?_⟩
  rw [hk]
  exact writtenIn_ofMatch hline hs

theorem writtenIn_of_mem_extract {wanted : Wanted} {source : String} {c : Comment}
    (h : c ∈ extract wanted source) :
    ∃ number line lineStart startColumn endColumn inner,
      c.WrittenIn source.toList number line lineStart startColumn endColumn inner := by
  rw [extract, ofLines_eq_flatMap] at h
  obtain ⟨p, hp, hc⟩ := List.mem_flatMap.mp h
  obtain ⟨m, hm, rfl⟩ := List.mem_map.mp hc
  obtain ⟨-, inner, hw⟩ := writtenIn_of_mem_scanLine hp hm
  exact ⟨_, _, _, _, _, inner, hw⟩

/-- Matches of one line are in order as their columns are, and matches of two lines as the lines
are. -/
theorem pairwise_extract (wanted : Wanted) (source : String) :
    (extract wanted source).Pairwise EndsBefore := by
  rw [extract, ofLines_eq_flatMap, List.pairwise_flatMap]
  constructor
  · intro p hp
    rw [List.pairwise_map]
    refine (pairwise_scanLine wanted _).imp_of_mem fun {a b} ha hb hab => ?_
    obtain ⟨-, _, hwa⟩ := writtenIn_of_mem_scanLine hp ha
    obtain ⟨-, _, hwb⟩ := writtenIn_of_mem_scanLine hp hb
    change a.endColumn ≤ b.startColumn at hab
    rw [EndsBefore, hwa.stop_eq, hwb.start_eq, hwa.endOffset_eq, hwb.startOffset_eq,
      Position.ofNat_le_ofNat, Number.int_le_int]
    omega
  · refine (pairwise_zipIdx _ 1).imp_of_mem fun {p q} hp hq hpq c hc d hd => ?_
    obtain ⟨a, ha, rfl⟩ := List.mem_map.mp hc
    obtain ⟨b, hb, rfl⟩ := List.mem_map.mp hd
    obtain ⟨hend, _, hwa⟩ := writtenIn_of_mem_scanLine hp ha
    obtain ⟨-, _, hwb⟩ := writtenIn_of_mem_scanLine hq hb
    have hpos := hwa.number_pos
    have hlater := width_beforeLine_lt hwa.line_eq (k := q.2 - 1) (by omega)
    rw [EndsBefore, hwa.stop_eq, hwb.start_eq, hwa.endOffset_eq, hwb.startOffset_eq,
      Position.ofNat_le_ofNat, Number.int_le_int]
    omega

theorem pairwise_start_extract (wanted : Wanted) (source : String) :
    (extract wanted source).Pairwise fun c d => c.start < d.start := by
  refine (pairwise_extract wanted source).imp_of_mem fun {c d} hc _ h => ?_
  obtain ⟨_, _, _, _, _, _, hw⟩ := writtenIn_of_mem_extract hc
  have hlt : c.start < c.span.stop := by
    rw [start, hw.start_eq, hw.stop_eq, Position.ofNat_lt_ofNat]
    exact .inr ⟨rfl, hw.startColumn_lt⟩
  rcases (Position.le_def _ _).mp h.1 with hle | ⟨heq, -⟩
  · exact Position.lt_trans hlt hle
  · rw [heq] at hlt
    exact hlt

theorem nodup_extract (wanted : Wanted) (source : String) : (extract wanted source).Nodup := by
  refine (pairwise_start_extract wanted source).imp fun {c d} h heq => ?_
  subst heq
  exact Position.lt_irrefl _ h

/-- Every extracted comment is written in the source exactly as its span, kind and text say, and
the comments come in order without overlaps. -/
theorem extract_denotes_source (wanted : Wanted) (source : String) :
    (∀ c ∈ extract wanted source, ∃ number line lineStart startColumn endColumn inner,
        c.WrittenIn source.toList number line lineStart startColumn endColumn inner) ∧
      (extract wanted source).Pairwise EndsBefore :=
  ⟨fun _ h => writtenIn_of_mem_extract h, pairwise_extract wanted source⟩

/-- A block before a line comment, on a line that a carriage return ends. -/
theorem extract_denotes_source_carriageReturn :
    let c : Comment := ⟨"b", .block, ⟨.ofNat 2 2, .ofNat 2 9, .int 5, .int 12⟩⟩
    c ∈ extract .both "a\r\nx /* b */ // c\r\n" ∧
      ∃ number line lineStart startColumn endColumn inner,
        c.WrittenIn "a\r\nx /* b */ // c\r\n".toList number line lineStart startColumn endColumn
          inner := by
  intro c
  have h : c ∈ extract .both "a\r\nx /* b */ // c\r\n" := by decide +kernel
  exact ⟨h, (extract_denotes_source .both _).1 c h⟩

end Comment
end Marginalia
