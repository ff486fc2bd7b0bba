import Marginalia.Comment.Scan
import Marginalia.Proofs.Lines
import Mathlib.Tactic

/-!
# What stands on a line

Block comments and the line comment of a line are found by two separate scans.
Each match of either is a stretch of the line between the delimiters of its
kind, begins outside quotes, and ends where its kind says; the matches of a
line come in order and do not overlap.
-/

namespace Marginalia

theorem Number.countBelow_natCast (limit n : Nat) : countBelow limit (.int n) = min n limit := by
  simp only [countBelow, numerator, exponent, twoTo, Nat.pow_eq]
  omega

namespace Comment

open Text

theorem isQuoted_width (before rest : List Char) :
    isQuoted (before ++ rest) (.int (width before)) = (Quote.outside.after before).isInside := by
  rw [isQuoted, Number.countBelow_natCast, width_append, Nat.min_eq_left (Nat.le_add_right _ _),
    takeWidth_width]

/-- A text between the delimiters of a kind of comments. -/
def Kind.delimit : Kind → List Char → List Char
  | .line, inner => '/' :: '/' :: inner
  | .block, inner => '/' :: '*' :: (inner ++ ['*', '/'])

/-- Where a comment of a kind ends, given what follows it on its line: a line comment at the end
of the line, a block comment at the first closing delimiter after its opening one. -/
def Kind.EndsProperly : Kind → List Char → List Char → Prop
  | .line, _, after => after = []
  | .block, raw, _ =>
    ∀ k, 2 ≤ k → raw[k]? = some '*' → raw[k + 1]? = some '/' → k + 2 = raw.length

/-- A match is what stands on a line between two texts, with the given text in its delimiters. -/
structure Match.StandsOn (m : Match) (line before inner after : List Char) : Prop where
  line_eq : line = before ++ (m.kind.delimit inner ++ after)
  startColumn_eq : m.startColumn = width before
  endColumn_eq : m.endColumn = width before + width (m.kind.delimit inner)
  text_eq : m.text = String.ofList (trim inner)
  unquoted : (Quote.outside.after before).isInside = false
  ends : m.kind.EndsProperly (m.kind.delimit inner) after

theorem width_delimit_block (inner : List Char) :
    width (Kind.block.delimit inner) = 2 + width inner + 2 := by
  simp only [Kind.delimit, width_cons, width_append, width_nil]
  change 1 + (1 + (width inner + (1 + (1 + 0)))) = _
  omega

theorem column_behind_block (column : Nat) (inner : List Char) :
    column + 2 + width inner + 2 = column + width (Kind.block.delimit inner) := by
  rw [width_delimit_block]
  omega

theorem width_delimit_pos (kind : Kind) (inner : List Char) : 0 < width (kind.delimit inner) := by
  have hc := units_pos '/'
  cases kind <;> simp only [Kind.delimit, width_cons] <;> omega

namespace Match.StandsOn

variable {m : Match} {line before inner after : List Char}

theorem startColumn_lt (h : m.StandsOn line before inner after) : m.startColumn < m.endColumn := by
  have hw := width_delimit_pos m.kind inner
  rw [h.startColumn_eq, h.endColumn_eq]
  omega

theorem endColumn_le (h : m.StandsOn line before inner after) : m.endColumn ≤ width line := by
  rw [h.endColumn_eq, h.line_eq, width_append, width_append]
  omega

theorem isQuoted_eq (h : m.StandsOn line before inner after) :
    isQuoted line (.int m.startColumn) = false := by
  rw [h.startColumn_eq, h.line_eq, isQuoted_width]
  exact h.unquoted

end Match.StandsOn

/-- Behind an opening delimiter the text that is cut off is that of a block. -/
theorem opening_eq_delimit {cs inner rest : List Char} (h : cutAtClose cs = some (inner, rest)) :
    '/' :: '*' :: cs = Kind.block.delimit inner ++ rest := by
  rw [cutAtClose_eq h]
  simp [Kind.delimit]

theorem cutAtClose_first {cs inner rest : List Char} (h : cutAtClose cs = some (inner, rest))
    {k : Nat} (hs : (inner ++ ['*', '/'])[k]? = some '*')
    (hc : (inner ++ ['*', '/'])[k + 1]? = some '/') : k = inner.length := by
  fun_induction cutAtClose cs generalizing inner k with
  | case1 => simp at h
  | case2 =>
    obtain ⟨rfl, -⟩ : [] = inner ∧ _ := by simpa using h
    rcases k with _ | _ | k <;> simp_all
  | case3 c r hr ih =>
    obtain ⟨⟨inner', rest'⟩, hp, he⟩ := Option.map_eq_some_iff.1 h
    obtain ⟨rfl, rfl⟩ : c :: inner' = inner ∧ rest' = rest := by simpa using he
    cases k with
    | zero =>
      obtain rfl : c = '*' := by simpa using hs
      have hcut := cutAtClose_eq hp
      rcases inner' with _ | ⟨d, inner'⟩
      · simp at hc
      · obtain rfl : d = '/' := by simpa using hc
        exact (hr _ rfl hcut).elim
    | succ k =>
      have hk : k = inner'.length := ih hp (by simpa using hs) (by simpa using hc)
      rw [hk, List.length_cons]

theorem endsProperly_block {cs inner rest after : List Char}
    (h : cutAtClose cs = some (inner, rest)) :
    Kind.block.EndsProperly (Kind.block.delimit inner) after := by
  intro k hk hs hc
  obtain ⟨k, rfl⟩ : ∃ j, k = j + 2 := ⟨k - 2, by omega⟩
  have hf := cutAtClose_first h (by simpa [Kind.delimit] using hs)
    (by simpa [Kind.delimit] using hc)
  simp [Kind.delimit, hf]

theorem after_one {before : List Char} {column : Nat} {q : Quote} (hcol : width before = column)
    (hq : Quote.outside.after before = q) (c : Char) :
    width (before ++ [c]) = column + units c ∧
      Quote.outside.after (before ++ [c]) = q.step c := by
  constructor
  · rw [width_append, hcol]
    rfl
  · rw [Quote.after_append, hq, Quote.after_cons, Quote.after_nil]

/-- Every block that is found stands on the line, whatever was read before the search. -/
theorem standsOn_of_mem_blocksFrom {before cs : List Char} {m : Match}
    (h : m ∈ blocksFrom (width before) (Quote.outside.after before) cs) :
    m.kind = .block ∧ ∃ start inner after, m.StandsOn (before ++ cs) start inner after := by
  generalize hcol : width before = column at h
  generalize hq : Quote.outside.after before = q at h
  -- The induction moves characters from the rest of the line to what was read.
  fun_induction blocksFrom column q cs generalizing before with
  | case1 => simp at h
  | case2 column q rest hi ih =>
    obtain ⟨hw, ha⟩ := after_one hcol hq '/'
    simpa using ih hw ha h
  | case3 => simp at h
  | case4 column q rest hi inner after hcut hlen stop =>
    rename_i ih
    have hline := opening_eq_delimit hcut
    have hstop := column_behind_block column inner
    rcases List.mem_cons.mp h with rfl | h
    · refine ⟨rfl, before, inner, after, ?_, hcol.symm, ?_, rfl, ?_, endsProperly_block hcut⟩
      · rw [hline]
        rfl
      · rw [hcol]
        exact hstop
      · rw [hq]
        simpa using hi
    · have hw : width (before ++ Kind.block.delimit inner) = column + 2 + width inner + 2 := by
        rw [width_append, hcol, hstop]
      have ha : Quote.outside.after (before ++ Kind.block.delimit inner) =
          q.after ('/' :: '*' :: (inner ++ ['*', '/'])) := by
        rw [Quote.after_append, hq]
        rfl
      rw [hline, ← List.append_assoc]
      exact ih hw ha h
  | case5 column q c rest hc ih =>
    obtain ⟨hw, ha⟩ := after_one hcol hq c
    simpa using ih hw ha h

theorem startColumn_of_mem_blocksFrom {column : Nat} {q : Quote} {cs : List Char} {m : Match}
    (h : m ∈ blocksFrom column q cs) : column ≤ m.startColumn := by
  fun_induction blocksFrom column q cs with
  | case1 => simp at h
  | case2 column q rest hi ih => exact Nat.le_of_succ_le (ih h)
  | case3 => simp at h
  | case4 column q rest hi inner after hcut hlen stop =>
    rename_i ih
    rcases List.mem_cons.mp h with rfl | h
    · exact Nat.le_refl _
    · have hs := ih h
      omega
  | case5 column q c rest hc ih => exact Nat.le_trans (Nat.le_add_right _ _) (ih h)

/-- A match that ends before another begins. -/
def Match.EndsBefore (a b : Match) : Prop := a.endColumn ≤ b.startColumn

theorem pairwise_blocksFrom (column : Nat) (q : Quote) (cs : List Char) :
    (blocksFrom column q cs).Pairwise Match.EndsBefore := by
  fun_induction blocksFrom column q cs with
  | case1 => exact .nil
  | case2 column q rest hi ih => exact ih
  | case3 => exact .nil
  | case4 column q rest hi inner after hcut hlen stop =>
    rename_i ih
    exact .cons (fun m hm => startColumn_of_mem_blocksFrom hm) ih
  | case5 column q c rest hc ih => exact ih

/-- The line comment stands on the line and begins in none of the blocks that were found. -/
theorem standsOn_of_lineCommentFrom {found : List Match} {before cs : List Char} {m : Match}
    (h : lineCommentFrom found (width before) (Quote.outside.after before) cs = some m) :
    m.kind = .line ∧ (∀ b ∈ found, b.covers m.startColumn = false) ∧
      ∃ start inner after, m.StandsOn (before ++ cs) start inner after := by
  generalize hcol : width before = column at h
  generalize hq : Quote.outside.after before = q at h
  fun_induction lineCommentFrom found column q cs generalizing before with
  | case1 => simp at h
  | case2 column q rest hf ih =>
    obtain ⟨hw, ha⟩ := after_one hcol hq '/'
    simpa using ih hw ha h
  | case3 => simp at h
  | case4 column q rest hf hi =>
    obtain rfl := Option.some.inj h
    refine ⟨rfl, ?_, before, rest, [], ?_, hcol.symm, ?_, rfl, ?_, rfl⟩
    · intro b hb
      rw [← Bool.not_eq_true]
      exact fun hcov => hf (List.any_eq_true.mpr ⟨b, hb, hcov⟩)
    · rw [List.append_nil]
      rfl
    · change column + 2 + width rest = width before + (1 + (1 + width rest))
      omega
    · rw [hq]
      simpa using hi
  | case5 column q c rest hc ih =>
    obtain ⟨hw, ha⟩ := after_one hcol hq c
    simpa using ih hw ha h

variable {wanted : Wanted} {line : List Char}

theorem standsOn_of_mem_blocks {m : Match} (h : m ∈ blocks line) :
    m.kind = .block ∧ ∃ before inner after, m.StandsOn line before inner after :=
  standsOn_of_mem_blocksFrom (show m ∈ blocksFrom (width []) (Quote.outside.after []) line from h)

theorem standsOn_of_lineComment {found : List Match} {m : Match}
    (h : lineComment found line = some m) :
    m.kind = .line ∧ (∀ b ∈ found, b.covers m.startColumn = false) ∧
      ∃ before inner after, m.StandsOn line before inner after :=
  standsOn_of_lineCommentFrom
    (show lineCommentFrom found (width []) (Quote.outside.after []) line = some m from h)

theorem mem_scanLine {m : Match} (h : m ∈ scanLine wanted line) :
    m ∈ blocks line ∨ lineComment (blocks line) line = some m := by
  rcases List.mem_append.mp h with h | h
  · split_ifs at h with hb
    · exact .inl (List.mem_of_mem_filter h)
    · simp at h
  · split_ifs at h with hl
    · exact .inr (Option.mem_toList.mp h)
    · simp at h

theorem standsOn_of_mem_scanLine {m : Match} (h : m ∈ scanLine wanted line) :
    ∃ before inner after, m.StandsOn line before inner after := by
  rcases mem_scanLine h with h | h
  · exact (standsOn_of_mem_blocks h).2
  · exact (standsOn_of_lineComment h).2.2

/-- The blocks that are kept end before the line comment begins: they begin before it, and it
begins in none of them. -/
theorem pairwise_scanLine (wanted : Wanted) (line : List Char) :
    (scanLine wanted line).Pairwise Match.EndsBefore := by
  have hb : (blocks line).Pairwise Match.EndsBefore := pairwise_blocksFrom _ _ _
  refine List.pairwise_append.mpr ⟨?_, ?_, ?_⟩
  · split_ifs
    · exact hb.filter _
    · exact .nil
  · split_ifs
    · cases lineComment (blocks line) line with
      | none => exact .nil
      | some t => exact List.pairwise_singleton _ _
    · exact .nil
  · intro b hbm t htm
    split_ifs at hbm htm
    · have ht := Option.mem_toList.mp htm
      obtain ⟨hbm, hk⟩ := List.mem_filter.mp hbm
      have hlt : b.startColumn < t.startColumn := by simpa [Option.mem_def.mp ht] using hk
      have hcov := (standsOn_of_lineComment ht).2.1 b hbm
      simp only [Match.covers, Bool.and_eq_false_iff, decide_eq_false_iff_not] at hcov
      change b.endColumn ≤ t.startColumn
      omega
    all_goals simp at hbm htm

end Comment
end Marginalia
