import Marginalia.Proofs.Scan
import Mathlib.Order.Bounds.Basic

/-!
# Where the line comment starts

The search for the line comment stops at the first pair of slashes that no
block comment covers, and gives up if that pair is quoted. So a line comment
that is found starts at the first pair outside quotes and blocks, but it is
found only if no pair before it is quoted and uncovered.
-/

namespace Marginalia
namespace Comment

open Text

/-- Whether none of some matches lies at a column. -/
def IsClear (found : List Match) (column : Nat) : Prop := found.any (·.covers column) = false

theorem isClear_iff {found : List Match} {column : Nat} :
    IsClear found column ↔ ∀ b ∈ found, b.covers column = false := by
  simp [IsClear]

/-- A pair of slashes stands clear of some matches between two parts of a text, which begins at a
column, and is the first one to do so. -/
structure IsFirstPair (found : List Match) (column : Nat) (cs before after : List Char) :
    Prop where
  eq : cs = before ++ '/' :: '/' :: after
  clear : IsClear found (column + width before)
  first : ∀ a b, cs = a ++ '/' :: '/' :: b → IsClear found (column + width a) →
    width before ≤ width a

theorem isFirstPair_cons_iff {found : List Match} {column : Nat} {c : Char}
    {rest before after : List Char}
    (h : ∀ b, c :: rest = '/' :: '/' :: b → ¬ IsClear found column) :
    IsFirstPair found column (c :: rest) before after ↔
      ∃ others, before = c :: others ∧
        IsFirstPair found (column + units c) rest others after := by
  have hwidth : ∀ a, column + width (c :: a) = column + units c + width a :=
    fun a => (Nat.add_assoc _ _ _).symm
  constructor
  · rintro ⟨heq, hclear, hfirst⟩
    rcases before with _ | ⟨d, others⟩
    · exact (h after heq hclear).elim
    · obtain ⟨rfl, hrest⟩ : c = d ∧ rest = others ++ '/' :: '/' :: after := by simpa using heq
      refine ⟨others, rfl, hrest, hwidth others ▸ hclear, fun a b hab ha => ?_⟩
      have hle := hfirst (c :: a) b (by rw [hab]; rfl) (hwidth a ▸ ha)
      simpa using hle
  · rintro ⟨others, rfl, heq, hclear, hfirst⟩
    refine ⟨by rw [heq]; rfl, hwidth others ▸ hclear, fun a b hab ha => ?_⟩
    rcases a with _ | ⟨d, a⟩
    · exact (h b hab ha).elim
    · obtain ⟨rfl, hrest⟩ : c = d ∧ rest = a ++ '/' :: '/' :: b := by simpa using hab
      have hle := hfirst a b hrest (hwidth a ▸ ha)
      simpa using hle

/-- A match is the line comment at the first clear pair of a text, which is not quoted. -/
def IsLineCommentAt (found : List Match) (column : Nat) (q : Quote) (cs : List Char)
    (m : Match) : Prop :=
  ∃ before after, IsFirstPair found column cs before after ∧
    (q.after before).isInside = false ∧
    m = .ofInner .line after (column + width before) (column + width before + 2 + width after)

theorem isLineCommentAt_cons_iff {found : List Match} {column : Nat} {q : Quote} {c : Char}
    {rest : List Char} {m : Match}
    (h : ∀ b, c :: rest = '/' :: '/' :: b → ¬ IsClear found column) :
    IsLineCommentAt found column q (c :: rest) m ↔
      IsLineCommentAt found (column + units c) (q.step c) rest m := by
  have hwidth : ∀ a, column + units c + width a = column + width (c :: a) :=
    fun a => Nat.add_assoc _ _ _
  simp only [IsLineCommentAt, isFirstPair_cons_iff h, hwidth]
  constructor
  · rintro ⟨_, after, ⟨others, rfl, hfirst⟩, hq, hm⟩
    exact ⟨others, after, hfirst, hq, hm⟩
  · rintro ⟨others, after, hfirst, hq, hm⟩
    exact ⟨_, after, ⟨others, rfl, hfirst⟩, hq, hm⟩

theorem isLineCommentAt_pair_iff {found : List Match} {column : Nat} {q : Quote}
    {rest : List Char} {m : Match} (h : IsClear found column) :
    IsLineCommentAt found column q ('/' :: '/' :: rest) m ↔
      q.isInside = false ∧ m = .ofInner .line rest column (column + 2 + width rest) := by
  constructor
  · rintro ⟨before, after, hfirst, hq, hm⟩
    have hle := hfirst.first [] rest rfl h
    rcases before with _ | ⟨c, before⟩
    · obtain rfl : rest = after := by simpa using hfirst.eq
      exact ⟨hq, hm⟩
    · have hpos := units_pos c
      simp only [width_cons, width_nil] at hle
      omega
  · rintro ⟨hq, hm⟩
    exact ⟨[], rest, ⟨rfl, h, fun a _ _ _ => Nat.zero_le _⟩, hq, hm⟩

/-- The search gives the line comment at the first clear pair, if that pair is not quoted. -/
theorem lineCommentFrom_eq_some_iff {found : List Match} {column : Nat} {q : Quote}
    {cs : List Char} {m : Match} :
    lineCommentFrom found column q cs = some m ↔ IsLineCommentAt found column q cs m := by
  fun_induction lineCommentFrom found column q cs with
  | case1 column q =>
    simp only [reduceCtorEq, false_iff]
    rintro ⟨before, after, hfirst, -⟩
    simpa using hfirst.eq
  | case2 column q rest hcovered ih =>
    have hnot : ¬ IsClear found column := by simpa [IsClear] using hcovered
    exact ih.trans (isLineCommentAt_cons_iff (c := '/') fun _ _ => hnot).symm
  | case3 column q rest hclear hin =>
    rw [isLineCommentAt_pair_iff (Bool.eq_false_of_not_eq_true hclear)]
    simp [hin]
  | case4 column q rest hclear hin =>
    rw [isLineCommentAt_pair_iff (Bool.eq_false_of_not_eq_true hclear)]
    simp [hin, eq_comm]
  | case5 column q c rest hc ih =>
    refine ih.trans (isLineCommentAt_cons_iff fun b hb => ?_).symm
    obtain ⟨rfl, rfl⟩ : c = '/' ∧ rest = '/' :: b := by simpa using hb
    exact (hc b rfl rfl).elim

variable {line : List Char}

/-- A column of a line that holds a pair of slashes. -/
def HoldsPair (line : List Char) (column : Nat) : Prop :=
  ∃ before after, line = before ++ '/' :: '/' :: after ∧ width before = column

/-- A column at which the rule for line comments lets one start: a pair of slashes, outside quotes
and outside the block comments of the line. -/
structure CanStart (line : List Char) (column : Nat) : Prop where
  pair : HoldsPair line column
  unquoted : isQuoted line (.int column) = false
  uncovered : ∀ b ∈ blocks line, b.covers column = false

theorem mem_scanLine_line_iff {m : Match} :
    m ∈ scanLine .both line ∧ m.kind = .line ↔ lineComment (blocks line) line = some m := by
  constructor
  · rintro ⟨hm, hkind⟩
    refine (mem_scanLine hm).resolve_left fun hblock => ?_
    rw [(standsOn_of_mem_blocks hblock).1] at hkind
    cases hkind
  · intro h
    refine ⟨List.mem_append_right _ ?_, (standsOn_of_lineComment h).1⟩
    exact Option.mem_toList.mpr h

/-- The line comment starts at the first pair of slashes outside the block comments, and there is
one exactly if that pair is not quoted. -/
theorem exists_lineComment_iff {column : Nat} :
    (∃ m, lineComment (blocks line) line = some m ∧ m.startColumn = column) ↔
      IsLeast {p | HoldsPair line p ∧ ∀ b ∈ blocks line, b.covers p = false} column ∧
        isQuoted line (.int column) = false := by
  simp only [lineComment, lineCommentFrom_eq_some_iff]
  constructor
  · rintro ⟨_, ⟨before, after, ⟨heq, hclear, hfirst⟩, hq, rfl⟩, rfl⟩
    simp only [Match.ofInner, Nat.zero_add] at hclear hfirst ⊢
    refine ⟨⟨⟨⟨before, after, heq, rfl⟩, isClear_iff.mp hclear⟩, ?_⟩, ?_⟩
    · rintro p ⟨⟨a, b, hab, rfl⟩, hp⟩
      exact hfirst a b hab (isClear_iff.mpr hp)
    · rw [heq, isQuoted_width]
      exact hq
  · rintro ⟨⟨⟨⟨before, after, heq, rfl⟩, hclear⟩, hleast⟩, hq⟩
    rw [heq, isQuoted_width] at hq
    have hfirst : IsFirstPair (blocks line) 0 line before after := by
      refine ⟨heq, ?_, fun a b hab ha => ?_⟩
      · rw [Nat.zero_add]
        exact isClear_iff.mpr hclear
      · rw [Nat.zero_add] at ha
        exact hleast ⟨⟨a, b, hab, rfl⟩, isClear_iff.mp ha⟩
    exact ⟨_, ⟨before, after, hfirst, hq, rfl⟩, Nat.zero_add _⟩

theorem exists_isLeast_pair {p : Nat} (h : CanStart line p) :
    ∃ q ≤ p, IsLeast {q | HoldsPair line q ∧ ∀ b ∈ blocks line, b.covers q = false} q := by
  have hp : p ∈ {q | HoldsPair line q ∧ ∀ b ∈ blocks line, b.covers q = false} :=
    ⟨h.pair, h.uncovered⟩
  exact ⟨_, Nat.sInf_le hp, Nat.sInf_mem ⟨p, hp⟩, fun _ hq => Nat.sInf_le hq⟩

/-- A line comment is reported exactly if the rule lets one start at some column before which every
pair of slashes outside the block comments is outside quotes as well; and a line comment that is
reported starts at the first column at which the rule lets one start. -/
theorem lineComment_reported_iff (line : List Char) :
    ((∃ m ∈ scanLine .both line, m.kind = .line) ↔
        ∃ p, CanStart line p ∧ ∀ q < p, HoldsPair line q →
          (∀ b ∈ blocks line, b.covers q = false) → isQuoted line (.int q) = false) ∧
      ∀ m ∈ scanLine .both line, m.kind = .line →
        IsLeast {p | CanStart line p} m.startColumn := by
  have hstart : ∀ m ∈ scanLine .both line, m.kind = .line →
      IsLeast {p | HoldsPair line p ∧ ∀ b ∈ blocks line, b.covers p = false} m.startColumn ∧
        isQuoted line (.int m.startColumn) = false := fun m hm hkind =>
    exists_lineComment_iff.mp ⟨m, mem_scanLine_line_iff.mp ⟨hm, hkind⟩, rfl⟩
  refine ⟨⟨?_, ?_⟩, ?_⟩
  · rintro ⟨m, hm, hkind⟩
    obtain ⟨⟨⟨hpair, hclear⟩, hleast⟩, hq⟩ := hstart m hm hkind
    refine ⟨m.startColumn, ⟨hpair, hq, hclear⟩, fun q hlt hqpair hqclear => ?_⟩
    exact (Nat.not_le.mpr hlt (hleast ⟨hqpair, hqclear⟩)).elim
  · rintro ⟨p, hp, hbefore⟩
    obtain ⟨q, hle, hleast⟩ := exists_isLeast_pair hp
    have hquoted : isQuoted line (.int q) = false := by
      rcases Nat.lt_or_eq_of_le hle with hlt | rfl
      · exact hbefore q hlt hleast.1.1 hleast.1.2
      · exact hp.unquoted
    obtain ⟨m, hm, -⟩ := exists_lineComment_iff.mpr ⟨hleast, hquoted⟩
    exact ⟨m, mem_scanLine_line_iff.mpr hm⟩
  · intro m hm hkind
    obtain ⟨⟨⟨hpair, hclear⟩, hleast⟩, hq⟩ := hstart m hm hkind
    exact ⟨⟨hpair, hq, hclear⟩, fun p hp => hleast ⟨hp.pair, hp.uncovered⟩⟩

/-- A quoted pair of slashes hides the line comment behind it, although the rule lets it start. -/
theorem lineComment_hidden_by_quoted_pair :
    let line := "\"//\" // real".toList
    CanStart line 5 ∧ ¬ ∃ m ∈ scanLine .both line, m.kind = .line := by
  intro line
  have hpair : HoldsPair line 5 := ⟨"\"//\" ".toList, " real".toList, by decide, by decide⟩
  have hblocks : blocks line = [] := by decide +kernel
  refine ⟨⟨hpair, by decide, by simp [hblocks]⟩, ?_⟩
  rw [scanLine, hblocks]
  decide

end Comment
end Marginalia
