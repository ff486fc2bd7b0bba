import Marginalia.Proofs.Heading
import Marginalia.Proofs.Innermost
import Marginalia.Proofs.Lines

/-!
# Positions and offsets

The positions of a source are its lines with the columns up to their ends. In reading
order they have the offsets from zero to the length of the source, each offset once:
the offset at which a line starts is the width of the lines before it with their
newlines, so no offset is left out at the end of a line and none is given twice.
-/

namespace Marginalia
namespace Number

theorem zero_le_ofInt {n : Int} (h : 0 ≤ n) : .int 0 ≤ ofInt n := ofInt_le_ofInt h

theorem zero_le_fraction (h : Int) (d : Nat) : .int 0 ≤ fraction h d ↔ 0 ≤ 2 * h + 1 := by
  rw [le_iff_not_lt, lt_iff_of_finite rfl rfl]
  simp [numerator, exponent, twoTo]

theorem snd_reduce_eq_zero {m e : Nat} (h : (reduce m e).1 = 0) : (reduce m e).2 = 0 := by
  induction e generalizing m with
  | zero => rfl
  | succ e ih =>
    rw [reduce] at h ⊢
    split_ifs at h ⊢ with heven
    · exact ih h
    · exact absurd (congrArg (· % 2) h) heven

/-- A fraction without a sign has an odd numerator, so it is no zero over a power of two. -/
theorem zero_le_ofParts {m e : Nat} (h : m = 0 → e = 0) : .int 0 ≤ ofParts m e := by
  cases e with
  | zero => exact (int_le_int 0 m).2 (Int.natCast_nonneg m)
  | succ e =>
    rw [ofParts, zero_le_fraction]
    omega

theorem zero_le_ofQuotient (num den : Nat) : .int 0 ≤ ofQuotient false num den := by
  have hsign : ∀ m, withSign false m = m := fun _ => rfl
  rw [ofQuotient]
  simp only [hsign]
  split_ifs
  · simp
  · simp [le_iff_not_lt]
  · exact (int_le_int _ _).2 (Int.natCast_nonneg _)
  · exact zero_le_ofParts snd_reduce_eq_zero

theorem zero_le_nearest {num : Int} (h : 0 ≤ num) (e : Nat) : .int 0 ≤ nearest num e := by
  rw [nearest]
  split_ifs
  · exact zero_le_ofInt h
  · rw [decide_eq_false (by omega)]
    exact zero_le_ofQuotient _ _

theorem zero_le_addInt {x : Number} (h : .int 0 ≤ x) (k : Nat) : .int 0 ≤ x.addInt k := by
  cases x with
  | int n =>
    rw [int_le_int] at h
    exact zero_le_ofInt (by omega)
  | fraction half depth =>
    rw [zero_le_fraction] at h
    have hsum : 0 ≤ (k : Int) * twoTo (depth + 1) :=
      Int.mul_nonneg (Int.natCast_nonneg k) (Int.natCast_nonneg _)
    exact zero_le_nearest (by omega) _
  | infinite negative => exact h

theorem ofInt_lt_zero {n : Int} : ofInt n < .int 0 ↔ n < 0 := by
  constructor
  · intro h
    by_contra hn
    exact zero_le_ofInt (Int.not_lt.1 hn) h
  · intro h
    have hle : ¬ ofInt (-1) < ofInt n := ofInt_le_ofInt (by omega)
    rcases lt_trichotomy (ofInt n) (ofInt (-1)) with hlt | heq | hgt
    · exact lt_trans hlt (by decide)
    · rw [heq]
      decide
    · exact absurd hgt hle

end Number

namespace Position

/-- Whether the difference of two positions has the first one before the second. -/
def Precedes (a b : Position) : Prop := ∃ d, a.difference b = some d ∧ d < .int 0

theorem precedes_ofNat (l c l' c' : Nat) :
    (ofNat l c).Precedes (ofNat l' c') ↔ ofNat l c < ofNat l' c' := by
  have hsub : ∀ m n : Nat, (∃ d, Number.sub? (.int m) (.int n) = some d ∧ d < .int 0) ↔ m < n := by
    intro m n
    rw [Number.sub?_eq_ofInt rfl rfl]
    simp only [Option.some.injEq, exists_eq_left', Number.ofInt_lt_zero, Number.numerator]
    omega
  have hdifference : (ofNat l c).difference (ofNat l' c') =
      if l = l' then Number.sub? (.int c) (.int c') else Number.sub? (.int l) (.int l') := by
    simp [difference, ofNat]
  rw [Precedes, hdifference, ofNat_lt_ofNat]
  split_ifs <;> rw [hsub] <;> omega

end Position

namespace LineIndex

open Text

theorem lineCount_ofSource (source : List Char) :
    (ofSource source).lineCount = (lines source).length := by
  have hstarts := getElem?_startsAfter 0 source
  change (0 :: startsAfter 0 source).length = _
  apply Nat.le_antisymm
  · rw [← List.getElem?_eq_none_iff, hstarts, List.getElem?_eq_none (le_refl _)]
    rfl
  · rw [← List.getElem?_eq_none_iff, ← Option.map_eq_none_iff, ← hstarts,
      List.getElem?_eq_none (le_refl _)]

/-- A position of a source: its line is one of the index, and its column is at most the width of
that line without its newline. -/
def IsPositionOf (source : List Char) (p : Position) : Prop :=
  ∃ line column : Nat, p = .ofNat line column ∧ 1 ≤ line ∧ line ≤ (ofSource source).lineCount ∧
    column ≤ width ((lines source).getD (line - 1) [])

theorem isPositionOf_iff {source : List Char} {p : Position} :
    IsPositionOf source p ↔ ∃ (k column : Nat) (line : List Char),
      (lines source)[k]? = some line ∧ column ≤ width line ∧ p = .ofNat (k + 1) column := by
  constructor
  · rintro ⟨number, column, rfl, hpos, hle, hcolumn⟩
    rw [lineCount_ofSource] at hle
    obtain ⟨k, rfl⟩ : ∃ k, number = k + 1 := ⟨number - 1, by omega⟩
    have hget := List.getElem?_eq_getElem (l := lines source) (i := k) (by omega)
    rw [Nat.add_sub_cancel, List.getD_eq_getElem?_getD, hget] at hcolumn
    exact ⟨k, column, _, hget, hcolumn, rfl⟩
  · rintro ⟨k, column, line, hget, hcolumn, rfl⟩
    have hk : k < (lines source).length := (List.getElem?_eq_some_iff.1 hget).1
    refine ⟨k + 1, column, rfl, by omega, ?_, ?_⟩
    · rw [lineCount_ofSource]
      omega
    · rwa [Nat.add_sub_cancel, List.getD_eq_getElem?_getD, hget]

theorem offset_lt_offset_iff {ls : List (List Char)} {j k c d : Nat} {line line' : List Char}
    (hj : ls[j]? = some line) (hk : ls[k]? = some line') (hc : c ≤ width line)
    (hd : d ≤ width line') :
    width (beforeLine ls j) + c < width (beforeLine ls k) + d ↔ j < k ∨ j = k ∧ c < d := by
  rcases Nat.lt_trichotomy j k with hlt | rfl | hgt
  · have hstart := width_beforeLine_lt hj hlt
    omega
  · omega
  · have hstart := width_beforeLine_lt hk hgt
    omega

theorem offsetOf_lt_iff {source : List Char} {a b : Position} (ha : IsPositionOf source a)
    (hb : IsPositionOf source b) :
    (ofSource source).offsetOf a < (ofSource source).offsetOf b ↔ a < b := by
  obtain ⟨j, c, line, hj, hc, rfl⟩ := isPositionOf_iff.1 ha
  obtain ⟨k, d, line', hk, hd, rfl⟩ := isPositionOf_iff.1 hb
  rw [offsetOf_ofNat hj hc, offsetOf_ofNat hk hd, Number.int_lt_int, Int.ofNat_lt,
    offset_lt_offset_iff hj hk hc hd, Position.ofNat_lt_ofNat]
  omega

/-- Every offset in joined lines is in one of the lines, or at its end. -/
theorem exists_line_of_le {ls : List (List Char)} (hne : ls ≠ []) {n : Nat}
    (h : n ≤ width (['\n'].intercalate ls)) :
    ∃ (k column : Nat) (line : List Char), ls[k]? = some line ∧ column ≤ width line ∧
      width (beforeLine ls k) + column = n := by
  induction ls generalizing n with
  | nil => exact absurd rfl hne
  | cons line ls ih =>
    by_cases hle : n ≤ width line
    · exact ⟨0, n, line, rfl, hle, by simp⟩
    · cases ls with
      | nil =>
        rw [List.intercalate_singleton] at h
        exact absurd h hle
      | cons next ls =>
        have hunit : units '\n' = 1 := by decide
        rw [List.intercalate_cons_cons, width_append, width_append, width_cons, hunit,
          width_nil] at h
        obtain ⟨k, column, line', hget, hcolumn, hn⟩ :=
          ih (n := n - width line - 1) (by simp) (by omega)
        refine ⟨k + 1, column, line', hget, hcolumn, ?_⟩
        rw [beforeLine_cons_succ, width_append, width_cons, hunit]
        omega

theorem exists_isPositionOf {source : List Char} {n : Nat} (h : n ≤ width source) :
    ∃ p, IsPositionOf source p ∧ (ofSource source).offsetOf p = .int n := by
  have hjoin : ['\n'].intercalate (lines source) = source := List.intercalate_splitOn '\n'
  obtain ⟨k, column, line, hget, hcolumn, hn⟩ :=
    exists_line_of_le (lines_ne_nil source) (n := n) (by rwa [hjoin])
  refine ⟨.ofNat (k + 1) column, isPositionOf_iff.2 ⟨k, column, line, hget, hcolumn, rfl⟩, ?_⟩
  rw [offsetOf_ofNat hget hcolumn, hn]

theorem offsetFrom_bounds (index : LineIndex) (start : Nat) {column : Number}
    (h : .int 0 ≤ column) :
    .int 0 ≤ index.offsetFrom start column ∧
      index.offsetFrom start column ≤ .int index.length := by
  have hsum := Number.zero_le_addInt h start
  unfold offsetFrom
  split
  · rw [Number.int_le_int] at h
    rw [if_pos (by omega), Number.int_le_int, Number.int_le_int]
    omega
  · dsimp only
    split_ifs with hlt
    · exact ⟨hsum, Number.lt_asymm hlt⟩
    · simp

theorem offsetOf_bounds (index : LineIndex) {p : Position} (h : .int 0 ≤ p.column) :
    .int 0 ≤ index.offsetOf p ∧ index.offsetOf p ≤ .int index.length := by
  unfold offsetOf
  split
  · exact index.offsetFrom_bounds _ h
  · simp

theorem offsetOf_le_width {source : List Char} {p : Position} (h : IsPositionOf source p) :
    ∃ n : Nat, n ≤ width source ∧ (ofSource source).offsetOf p = .int n := by
  obtain ⟨k, column, line, hget, hcolumn, rfl⟩ := isPositionOf_iff.1 h
  have hoffset := offsetOf_ofNat hget hcolumn
  have hbound := ((ofSource source).offsetOf_bounds (p := .ofNat (k + 1) column)
    ((Number.int_le_int 0 column).2 (Int.natCast_nonneg column))).2
  rw [hoffset, Number.int_le_int] at hbound
  exact ⟨_, Int.ofNat_le.1 hbound, hoffset⟩

theorem offsetOf_injOn (source : List Char) :
    Set.InjOn (ofSource source).offsetOf {p | IsPositionOf source p} := by
  intro a ha b hb heq
  have hab : ¬ a < b := by
    rw [← offsetOf_lt_iff ha hb, heq]
    exact Number.lt_irrefl _
  have hba : ¬ b < a := by
    rw [← offsetOf_lt_iff hb ha, heq]
    exact Number.lt_irrefl _
  exact ((Position.lt_trichotomy a b).resolve_left hab).resolve_right hba

theorem precedes_iff_lt {source : List Char} {a b : Position} (ha : IsPositionOf source a)
    (hb : IsPositionOf source b) : a.Precedes b ↔ a < b := by
  obtain ⟨l, c, rfl, -⟩ := ha
  obtain ⟨l', c', rfl, -⟩ := hb
  exact Position.precedes_ofNat l c l' c'

/-- Offsets are an order isomorphism between the positions of a source and the numbers from zero to
its length. There are as many lines as pieces of the source between newlines. A position that is
none of the source still has its offset in the source, unless its column is negative. -/
theorem offsetOf_isOrderIso (source : List Char) :
    Set.BijOn (ofSource source).offsetOf {p | IsPositionOf source p}
        {x | ∃ n : Nat, n ≤ width source ∧ x = .int n} ∧
      (∀ a b, IsPositionOf source a → IsPositionOf source b →
        (a.Precedes b ↔ (ofSource source).offsetOf a < (ofSource source).offsetOf b)) ∧
      (ofSource source).lineCount = (lines source).length ∧
      ∀ p : Position, .int 0 ≤ p.column →
        .int 0 ≤ (ofSource source).offsetOf p ∧
          (ofSource source).offsetOf p ≤ .int (width source) := by
  refine ⟨⟨fun p hp => offsetOf_le_width hp, offsetOf_injOn source, ?_⟩, fun a b ha hb => ?_,
    lineCount_ofSource source, fun p hp => (ofSource source).offsetOf_bounds hp⟩
  · rintro _ ⟨n, hn, rfl⟩
    exact exists_isPositionOf hn
  · rw [precedes_iff_lt ha hb, offsetOf_lt_iff ha hb]

def emptyLines : List Char := ['a', '\n', '\n', 'b', '\n']

/-- In a source with an empty line and a newline at its end: the end of the first line, the empty
line, the end of the source, and a position between two columns. -/
theorem offsetOf_isOrderIso_empty_lines :
    (IsPositionOf emptyLines (.ofNat 1 1) ∧ IsPositionOf emptyLines (.ofNat 2 0) ∧
      IsPositionOf emptyLines (.ofNat 4 0)) ∧
    (Position.ofNat 1 1).Precedes (.ofNat 2 0) ∧
    (ofSource emptyLines).offsetOf (.ofNat 1 1) < (ofSource emptyLines).offsetOf (.ofNat 2 0) ∧
    (ofSource emptyLines).offsetOf (.ofNat 4 0) = .int 5 ∧
    .int 0 ≤ (ofSource emptyLines).offsetOf ⟨.int 3, .fraction 0 0⟩ := by
  have hfirst : IsPositionOf emptyLines (.ofNat 1 1) :=
    ⟨1, 1, rfl, by decide, by decide, by decide⟩
  have hsecond : IsPositionOf emptyLines (.ofNat 2 0) :=
    ⟨2, 0, rfl, by decide, by decide, by decide⟩
  have hlast : IsPositionOf emptyLines (.ofNat 4 0) :=
    ⟨4, 0, rfl, by decide, by decide, by decide⟩
  have hprecedes : (Position.ofNat 1 1).Precedes (.ofNat 2 0) :=
    ⟨.int (-1), by decide, by decide⟩
  obtain ⟨-, horder, -, hbounds⟩ := offsetOf_isOrderIso emptyLines
  exact ⟨⟨hfirst, hsecond, hlast⟩, hprecedes, (horder _ _ hfirst hsecond).1 hprecedes,
    by decide, (hbounds _ (by decide)).1⟩

end LineIndex
end Marginalia
