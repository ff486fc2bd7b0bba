import Marginalia.Proofs.Opacity

/-!
# Where block comments are reported

The search for block comments passes over an opening delimiter for three
reasons only: it is quoted, a block comment that was found covers it, or an
opening at or before it is never closed, which ends the search. A block comment
that was found is reported unless the line comment covers it. So there is a
block comment at every other opening delimiter, and at no other column.
-/

namespace Marginalia
namespace Comment

open Text

theorem isUnclosed_of_cutAtClose {cs : List Char} (h : cutAtClose cs = none) : IsUnclosed cs := by
  fun_induction cutAtClose cs with
  | case1 => simp [IsUnclosed]
  | case2 => cases h
  | case3 c rest hfirst ih =>
    have hrest : IsUnclosed rest := ih (Option.map_eq_none_iff.mp h)
    intro hclose
    rcases List.infix_cons_iff.mp hclose with ⟨after, hafter⟩ | hlater
    · obtain ⟨rfl, hnext⟩ := List.cons.inj hafter
      exact hfirst after rfl hnext.symm
    · exact hrest hlater

theorem blocksFrom_of_cutAtClose {q : Quote} (hq : q.isInside = false) {rest : List Char}
    (hcut : cutAtClose rest = none) (column : Nat) :
    blocksFrom column q ('/' :: '*' :: rest) = [] := by
  rw [blocksFrom, if_neg (by simp [hq])]
  split
  · rfl
  · next hsome => simp [hcut] at hsome

/-- The search for blocks in a text ends at an opening delimiter between two parts of it: it is
outside quotes and behind all the blocks, and nothing closes it. -/
structure EndsBetween (column : Nat) (q : Quote) (cs before rest : List Char) : Prop where
  eq : cs = before ++ '/' :: '*' :: rest
  unquoted : (q.after before).isInside = false
  behind : ∀ m ∈ blocksFrom column q cs, m.endColumn ≤ column + width before
  unclosed : IsUnclosed rest

/-- What becomes of an opening delimiter behind the first part of a text: a block that is found
covers it, or the search ends there or before. -/
def Settled (column : Nat) (q : Quote) (cs before : List Char) : Prop :=
  (∃ m ∈ blocksFrom column q cs, m.covers (column + width before) = true) ∨
    ∃ start rest, EndsBetween column q cs start rest ∧ width start ≤ width before

theorem Settled.cons {column : Nat} {q : Quote} {c : Char} {cs before : List Char}
    (h : Settled (column + units c) (q.step c) cs before)
    (hblocks : blocksFrom column q (c :: cs) = blocksFrom (column + units c) (q.step c) cs) :
    Settled column q (c :: cs) (c :: before) := by
  rcases h with ⟨m, hm, hcovers⟩ | ⟨start, rest, hend, hle⟩
  · left
    refine ⟨m, hblocks ▸ hm, ?_⟩
    rw [width_cons, ← Nat.add_assoc]
    exact hcovers
  · right
    refine ⟨c :: start, rest, ⟨?_, hend.unquoted, ?_, hend.unclosed⟩, ?_⟩
    · simp [hend.eq]
    · intro m hm
      have hbehind := hend.behind m (hblocks ▸ hm)
      rw [width_cons]
      omega
    · simpa using hle

theorem Settled.block {column : Nat} {q : Quote} {inner cs before : List Char}
    (h : Settled (column + width (Kind.block.delimit inner)) (q.after (Kind.block.delimit inner)) cs
      before)
    (hq : q.isInside = false) (hinner : IsUnclosed inner) :
    Settled column q (Kind.block.delimit inner ++ cs) (Kind.block.delimit inner ++ before) := by
  have hblocks := blocksFrom_open hq (cutAtClose_of_isUnclosed hinner cs) column
  have htext : '/' :: '*' :: (inner ++ '*' :: '/' :: cs) = Kind.block.delimit inner ++ cs := by
    simp [Kind.delimit]
  rw [htext] at hblocks
  rcases h with ⟨m, hm, hcovers⟩ | ⟨start, rest, hend, hle⟩
  · left
    refine ⟨m, ?_, ?_⟩
    · rw [hblocks]
      exact List.mem_cons_of_mem _ hm
    · rw [width_append, ← Nat.add_assoc]
      exact hcovers
  · right
    refine ⟨Kind.block.delimit inner ++ start, rest, ⟨?_, ?_, ?_, hend.unclosed⟩, ?_⟩
    · simp [hend.eq]
    · rw [Quote.after_append]
      exact hend.unquoted
    · intro m hm
      rw [hblocks] at hm
      rw [width_append]
      rcases List.mem_cons.mp hm with rfl | hm
      · simp only [Match.ofInner]
        omega
      · have hbehind := hend.behind m hm
        omega
    · simpa using hle

/-- Every opening delimiter outside quotes is settled. -/
theorem settled_of_unquoted {column : Nat} {q : Quote} {cs before after : List Char}
    (h : cs = before ++ '/' :: '*' :: after) (hq : (q.after before).isInside = false) :
    Settled column q cs before := by
  fun_induction blocksFrom column q cs generalizing before with
  | case1 => simp at h
  | case2 column q r hin ih =>
    rcases before with _ | ⟨c, before⟩
    · simp [hin] at hq
    · obtain ⟨rfl, hr⟩ := List.cons.inj h
      exact (ih hr hq).cons (blocksFrom_cons (by simp [hin]) column)
  | case3 column q r hout hcut =>
    right
    have hq : q.isInside = false := by simpa using hout
    refine ⟨[], r, ⟨rfl, hq, ?_, isUnclosed_of_cutAtClose hcut⟩, Nat.zero_le _⟩
    rw [blocksFrom_of_cutAtClose hq hcut]
    simp
  | case4 column q r hout inner rest hcut hlen stop =>
    rename_i ih
    have hq' : q.isInside = false := by simpa using hout
    have hraw := opening_eq_delimit hcut
    by_cases hlt : width before < width (Kind.block.delimit inner)
    · left
      refine ⟨.ofInner .block inner column (column + width (Kind.block.delimit inner)), ?_, ?_⟩
      · rw [blocksFrom_open hq' hcut]
        exact List.mem_cons_self
      · simp [Match.covers, Match.ofInner, hlt]
    · obtain ⟨later, rfl, hlater⟩ :=
        exists_append_of_width_le (hraw.symm.trans h) (by omega)
      rw [hraw]
      rw [Quote.after_append] at hq
      have hstop : stop = column + width (Kind.block.delimit inner) :=
        column_behind_block column inner
      rw [hstop] at ih
      exact (ih hlater hq).block hq' (isUnclosed_of_cut hcut)
  | case5 column q c r hc ih =>
    rcases before with _ | ⟨d, before⟩
    · obtain ⟨rfl, hr⟩ := List.cons.inj h
      exact (hc _ rfl hr).elim
    · obtain ⟨rfl, hr⟩ := List.cons.inj h
      refine (ih hr hq).cons (blocksFrom_cons ?_ column)
      intro _ r' hopen
      obtain ⟨rfl, hnext⟩ := List.cons.inj hopen
      exact hc _ rfl hnext

/-- A column of a line that holds a delimiter. -/
def Holds (delimiter line : List Char) (column : Nat) : Prop :=
  ∃ before after, line = before ++ (delimiter ++ after) ∧ width before = column

/-- A column of a line that ends the search for block comments: it holds an opening delimiter
outside quotes and outside the reported block comments, and no closing delimiter follows. -/
structure EndsSearch (line : List Char) (column : Nat) : Prop where
  opening : Holds ['/', '*'] line column
  unquoted : isQuoted line (.int column) = false
  uncovered : ∀ m ∈ scanLine .both line, m.kind = .block → m.covers column = false
  unclosed : ∀ p, column + 2 ≤ p → ¬ Holds ['*', '/'] line p

variable {line : List Char} {p : Nat} {m : Match}

theorem covers_eq_true_iff : m.covers p = true ↔ m.startColumn ≤ p ∧ p < m.endColumn := by
  simp [Match.covers]

theorem endsSearch_of_endsBetween {start rest : List Char}
    (h : EndsBetween 0 Quote.outside line start rest) : EndsSearch line (width start) := by
  obtain ⟨heq, hquote, hbehind, hunclosed⟩ := h
  constructor
  · exact ⟨start, rest, heq, rfl⟩
  · rw [heq, isQuoted_width]
    exact hquote
  · intro m hm hkind
    have hle := hbehind m (mem_scanLine_block hm hkind).1
    rw [← Bool.not_eq_true, covers_eq_true_iff]
    omega
  · rintro p hle ⟨before, after, hline, rfl⟩
    have hsplit : (start ++ ['/', '*']) ++ rest = before ++ '*' :: '/' :: after := by
      rw [heq] at hline
      simpa using hline
    have hwidth : width (start ++ ['/', '*']) = width start + 2 := width_append _ _
    obtain ⟨inner, -, hrest⟩ := exists_append_of_width_le hsplit (by omega)
    apply hunclosed
    exact ⟨inner, after, by simp [hrest]⟩

theorem endColumn_of_lineComment {found : List Match} (h : lineComment found line = some m) :
    m.endColumn = width line := by
  obtain ⟨hkind, -, before, inner, after, hstands⟩ := standsOn_of_lineComment h
  have hends := hstands.ends
  rw [hkind] at hends
  obtain rfl : after = [] := hends
  rw [hstands.endColumn_eq, hstands.line_eq, List.append_nil, width_append]

/-- A block that is found is reported, or the line comment that begins before it covers it. -/
theorem exists_covers_of_mem_blocks (hm : m ∈ blocks line) (hp : m.covers p = true) :
    ∃ m ∈ scanLine .both line, m.covers p = true := by
  by_cases hkept : isKept (lineComment (blocks line) line) m = true
  · exact ⟨m, List.mem_append_left _ (List.mem_filter.mpr ⟨hm, hkept⟩), hp⟩
  · obtain ⟨t, htail, hle⟩ : ∃ t, lineComment (blocks line) line = some t ∧
        t.startColumn ≤ m.startColumn := by
      simpa [isKept, Option.all_eq_false] using hkept
    rw [covers_eq_true_iff] at hp
    obtain ⟨-, before, inner, after, hstands⟩ := standsOn_of_mem_blocks hm
    have hend := hstands.endColumn_le
    refine ⟨t, (mem_scanLine_line_iff.mpr htail).1, covers_eq_true_iff.mpr ⟨by omega, ?_⟩⟩
    rw [endColumn_of_lineComment htail]
    omega

theorem kind_of_holds_opening (hm : m ∈ scanLine .both line)
    (hp : Holds ['/', '*'] line m.startColumn) : m.kind = .block := by
  obtain ⟨before, inner, after, hstands⟩ := standsOn_of_mem_scanLine hm
  obtain ⟨before', after', hline, hwidth⟩ := hp
  have hsplit := hstands.line_eq.symm.trans hline
  rw [hstands.startColumn_eq] at hwidth
  obtain ⟨e, rfl, he⟩ := exists_append_of_width_le hsplit (by omega)
  obtain rfl : e = [] := by
    cases e with
    | nil => rfl
    | cons c e =>
      have hpos := units_pos c
      simp only [width_append, width_cons] at hwidth
      omega
  cases hkind : m.kind with
  | block => rfl
  | line => simp [hkind, Kind.delimit] at he

theorem endsBefore_or_endsBefore {a b : Match} (ha : a ∈ scanLine .both line)
    (hb : b ∈ scanLine .both line) (hne : a ≠ b) : a.EndsBefore b ∨ b.EndsBefore a := by
  have hordered : (scanLine .both line).Pairwise fun a b => a.EndsBefore b ∨ b.EndsBefore a :=
    (pairwise_scanLine .both line).imp Or.inl
  have : Std.Symm fun a b : Match => a.EndsBefore b ∨ b.EndsBefore a := ⟨fun _ _ => Or.symm⟩
  exact hordered.forall ha hb hne

/-- A block comment is reported at a column exactly if an opening delimiter is there, outside quotes
and outside the comments that are reported to begin before, and no opening there or before ends the
search. -/
theorem block_reported_iff (line : List Char) (p : Nat) :
    (∃ m ∈ scanLine .both line, m.kind = .block ∧ m.startColumn = p) ↔
      Holds ['/', '*'] line p ∧ isQuoted line (.int p) = false ∧
        (∀ m ∈ scanLine .both line, m.covers p = true → m.startColumn = p) ∧
          ∀ q ≤ p, ¬ EndsSearch line q := by
  constructor
  · rintro ⟨m, hm, hkind, rfl⟩
    obtain ⟨before, inner, after, hstands⟩ := standsOn_of_mem_scanLine hm
    have hlt := hstands.startColumn_lt
    have hline : line = before ++ ('/' :: '*' :: inner ++ '*' :: '/' :: after) := by
      have heq := hstands.line_eq
      rw [hkind] at heq
      simpa [Kind.delimit] using heq
    have hstart : width before = m.startColumn := hstands.startColumn_eq.symm
    refine ⟨⟨before, inner ++ '*' :: '/' :: after, hline, hstart⟩, hstands.isQuoted_eq, ?_, ?_⟩
    · intro m' hm' hcovers
      rw [covers_eq_true_iff] at hcovers
      by_contra hne
      have hdifferent : m' ≠ m := fun h => hne (h ▸ rfl)
      rcases endsBefore_or_endsBefore hm' hm hdifferent with hbefore | hbefore
      all_goals
        rw [Match.EndsBefore] at hbefore
        omega
    · intro q hq hends
      have hclose : Holds ['*', '/'] line (width (before ++ '/' :: '*' :: inner)) :=
        ⟨before ++ '/' :: '*' :: inner, after, by simp [hline], rfl⟩
      refine hends.unclosed _ ?_ hclose
      have hopening : width ('/' :: '*' :: inner) = 2 + width inner := (Nat.add_assoc 1 1 _).symm
      rw [width_append]
      omega
  · rintro ⟨⟨before, after, hline, rfl⟩, hquote, hcovers, hends⟩
    rw [hline, isQuoted_width] at hquote
    have hsettled : Settled 0 Quote.outside line before := settled_of_unquoted hline hquote
    rcases hsettled with ⟨m, hm, hp⟩ | ⟨start, rest, hend, hle⟩
    · rw [Nat.zero_add] at hp
      obtain ⟨m, hm, hp⟩ := exists_covers_of_mem_blocks hm hp
      have hstart := hcovers m hm hp
      exact ⟨m, hm, kind_of_holds_opening hm ⟨before, after, hline, hstart.symm⟩, hstart⟩
    · exact (hends _ hle (endsSearch_of_endsBetween hend)).elim

/-- No opening delimiter of a block comment is missed: outside quotes, it begins a block comment
that is reported, or lies in a comment that is reported, or an opening there or before ends the
search. -/
theorem opening_accounted_for {line : List Char} {p : Nat} (hopening : Holds ['/', '*'] line p)
    (hquote : isQuoted line (.int p) = false) :
    (∃ m ∈ scanLine .both line, m.kind = .block ∧ m.startColumn = p) ∨
      (∃ m ∈ scanLine .both line, m.covers p = true) ∨ ∃ q ≤ p, EndsSearch line q := by
  by_cases hends : ∃ q ≤ p, EndsSearch line q
  · exact .inr (.inr hends)
  have hnone : ∀ q ≤ p, ¬ EndsSearch line q := fun q hle hq => hends ⟨q, hle, hq⟩
  by_cases hbegun : ∀ m ∈ scanLine .both line, m.covers p = true → m.startColumn = p
  · exact .inl ((block_reported_iff line p).mpr ⟨hopening, hquote, hbegun, hnone⟩)
  · obtain ⟨m, hm, hcovers⟩ : ∃ m ∈ scanLine .both line, m.covers p = true ∧ m.startColumn ≠ p := by
      simpa using hbegun
    exact .inr (.inl ⟨m, hm, hcovers.1⟩)

/-- An opening behind another one that nothing closes, on a line with a quoted opening and a block
comment. -/
theorem opening_accounted_for_unclosed :
    let line := "\"/*\" /* a */ /* b /* c".toList
    Holds ['/', '*'] line 18 ∧ isQuoted line (.int 18) = false ∧
      ((∃ m ∈ scanLine .both line, m.kind = .block ∧ m.startColumn = 18) ∨
        (∃ m ∈ scanLine .both line, m.covers 18 = true) ∨ ∃ q ≤ 18, EndsSearch line q) := by
  intro line
  have hopening : Holds ['/', '*'] line 18 :=
    ⟨"\"/*\" /* a */ /* b ".toList, " c".toList, by decide, by decide⟩
  have hquote : isQuoted line (.int 18) = false := by decide
  exact ⟨hopening, hquote, opening_accounted_for hopening hquote⟩

end Comment
end Marginalia
