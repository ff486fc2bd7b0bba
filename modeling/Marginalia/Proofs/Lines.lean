import Marginalia.LineIndex

/-!
# Lines, offsets and slices

A source is cut into lines by splitting it at its newlines, and the line index
is built by a separate walk over the characters. Both agree: the offset at
which a line starts is the width of the lines before it, with their newlines.
-/

namespace Marginalia
namespace Text

/-- The units of a text, one after another. -/
def encode (cs : List Char) : List Nat := cs.flatMap unitsOf

@[simp] theorem encode_append (a b : List Char) : encode (a ++ b) = encode a ++ encode b := by
  simp [encode]

@[simp] theorem length_encode (cs : List Char) : (encode cs).length = width cs := by
  induction cs with
  | nil => rfl
  | cons c cs ih =>
    change (unitsOf c ++ encode cs).length = _
    rw [List.length_append, length_unitsOf, ih, width_cons]

theorem extract_encode (a b c : List Char) :
    (encode (a ++ (b ++ c))).extract (width a) (width a + width b) = encode b := by
  rw [List.extract_eq_take_drop, encode_append, encode_append, Nat.add_sub_cancel_left,
    List.drop_left' (length_encode a), List.take_left' (length_encode b)]

theorem takeWidth_width (a b : List Char) : takeWidth (width a) (a ++ b) = a := by
  induction a with
  | nil =>
    cases b with
    | nil => rfl
    | cons c cs =>
      have hc := units_pos c
      rw [List.nil_append, takeWidth, if_neg (by rw [width_nil]; omega)]
  | cons c cs ih =>
    rw [List.cons_append, takeWidth, width_cons, if_pos (Nat.le_add_right _ _),
      Nat.add_sub_cancel_left, ih]

theorem lines_ne_nil (cs : List Char) : lines cs ≠ [] := List.splitOn_ne_nil _ _

theorem lines_newline (cs : List Char) : lines ('\n' :: cs) = [] :: lines cs := by
  rw [lines, List.splitOn_cons_eq_if_modifyHead]
  rfl

theorem lines_cons {c : Char} {cs line : List Char} {rest : List (List Char)} (hc : c ≠ '\n')
    (h : lines cs = line :: rest) : lines (c :: cs) = (c :: line) :: rest := by
  rw [lines, List.splitOn_cons_eq_if_modifyHead, if_neg (by simpa using hc)]
  change (lines cs).modifyHead _ = _
  rw [h]
  rfl

theorem length_lines_le (cs : List Char) : (lines cs).length ≤ width cs + 1 := by
  induction cs with
  | nil => simp [lines]
  | cons c cs ih =>
    have hpos := units_pos c
    by_cases hc : c = '\n'
    · rw [hc, lines_newline, List.length_cons, ← hc, width_cons]
      omega
    · obtain ⟨first, rest, hl⟩ := List.exists_cons_of_ne_nil (lines_ne_nil cs)
      rw [hl, List.length_cons] at ih
      rw [lines_cons hc hl, List.length_cons, width_cons]
      omega

theorem newline_notMem_of_mem_lines {cs line : List Char} (h : line ∈ lines cs) :
    '\n' ∉ line := by
  induction cs generalizing line with
  | nil =>
    obtain rfl : line = [] := by simpa [lines] using h
    exact List.not_mem_nil
  | cons c cs ih =>
    by_cases hc : c = '\n'
    · subst hc
      rw [lines_newline] at h
      rcases List.mem_cons.mp h with rfl | h
      · exact List.not_mem_nil
      · exact ih h
    · obtain ⟨first, rest, hl⟩ := List.exists_cons_of_ne_nil (lines_ne_nil cs)
      rw [lines_cons hc hl] at h
      rcases List.mem_cons.mp h with rfl | h
      · have hf := ih (hl ▸ List.mem_cons_self)
        simp [hf, Ne.symm hc]
      · exact ih (hl ▸ List.mem_cons_of_mem _ h)

/-- What stands before the line at an index, counting from zero. -/
def beforeLine (ls : List (List Char)) (k : Nat) : List Char :=
  (ls.take k).flatMap (· ++ ['\n'])

@[simp] theorem beforeLine_zero (ls : List (List Char)) : beforeLine ls 0 = [] := rfl

@[simp] theorem beforeLine_cons_succ (line : List Char) (ls : List (List Char)) (k : Nat) :
    beforeLine (line :: ls) (k + 1) = line ++ '\n' :: beforeLine ls k := by
  simp [beforeLine]

/-- A line stands in the text after the lines before it. -/
theorem exists_eq_beforeLine_append {cs line : List Char} {k : Nat}
    (h : (lines cs)[k]? = some line) :
    ∃ after, cs = beforeLine (lines cs) k ++ (line ++ after) := by
  induction cs generalizing k line with
  | nil =>
    cases k with
    | zero =>
      obtain rfl : [] = line := by simpa [lines] using h
      exact ⟨[], rfl⟩
    | succ k => simp [lines] at h
  | cons c cs ih =>
    by_cases hc : c = '\n'
    · subst hc
      rw [lines_newline] at h ⊢
      cases k with
      | zero =>
        obtain rfl : [] = line := by simpa using h
        exact ⟨'\n' :: cs, rfl⟩
      | succ k =>
        obtain ⟨after, ha⟩ := ih (by simpa using h)
        refine ⟨after, ?_⟩
        rw [beforeLine_cons_succ, List.nil_append, List.cons_append, ← ha]
    · obtain ⟨first, rest, hl⟩ := List.exists_cons_of_ne_nil (lines_ne_nil cs)
      rw [lines_cons hc hl] at h ⊢
      cases k with
      | zero =>
        obtain rfl : c :: first = line := by simpa using h
        have hf : (lines cs)[0]? = some first := by rw [hl]; rfl
        obtain ⟨after, ha⟩ := ih hf
        exact ⟨after, congrArg (c :: ·) ha⟩
      | succ k =>
        have hk : (lines cs)[k + 1]? = some line := by rw [hl]; simpa using h
        obtain ⟨after, ha⟩ := ih hk
        rw [hl, beforeLine_cons_succ] at ha
        exact ⟨after, by simpa using congrArg (c :: ·) ha⟩

theorem width_le_of_getElem?_lines {cs line : List Char} {k : Nat}
    (h : (lines cs)[k]? = some line) : width line ≤ width cs := by
  obtain ⟨after, ha⟩ := exists_eq_beforeLine_append h
  have hw := congrArg width ha
  simp only [width_append] at hw
  omega

theorem width_beforeLine_lt {ls : List (List Char)} {line : List Char} {j k : Nat}
    (h : ls[j]? = some line) (hjk : j < k) :
    width (beforeLine ls j) + width line < width (beforeLine ls k) := by
  induction ls generalizing j k with
  | nil => simp at h
  | cons first rest ih =>
    obtain ⟨k, rfl⟩ : ∃ m, k = m + 1 := ⟨k - 1, by omega⟩
    have hn := units_pos '\n'
    cases j with
    | zero =>
      obtain rfl : first = line := by simpa using h
      simp only [beforeLine_zero, beforeLine_cons_succ, width_nil, width_append, width_cons]
      omega
    | succ j =>
      have hr := ih (by simpa using h) (Nat.lt_of_succ_lt_succ hjk)
      simp only [beforeLine_cons_succ, width_append, width_cons]
      omega

end Text

namespace LineIndex

open Text

theorem getElem?_startsAfter (offset : Nat) (cs : List Char) (k : Nat) :
    (offset :: startsAfter offset cs)[k]? =
      (lines cs)[k]?.map fun _ => offset + width (beforeLine (lines cs) k) := by
  induction cs generalizing offset k with
  | nil => cases k <;> simp [lines, startsAfter]
  | cons c cs ih =>
    by_cases hc : c = '\n'
    · subst hc
      rw [lines_newline, startsAfter, if_pos rfl]
      cases k with
      | zero => simp
      | succ k =>
        rw [List.getElem?_cons_succ, ih]
        simp [Nat.add_assoc]
    · obtain ⟨first, rest, hl⟩ := List.exists_cons_of_ne_nil (lines_ne_nil cs)
      rw [lines_cons hc hl, startsAfter, if_neg hc]
      cases k with
      | zero => simp
      | succ k =>
        have hk := ih (offset + units c) (k + 1)
        rw [hl] at hk
        simpa [Nat.add_assoc] using hk

theorem start?_ofSource {source line : List Char} {k : Nat}
    (h : (lines source)[k]? = some line) :
    (ofSource source).start? (.int (k + 1 : Nat)) = some (width (beforeLine (lines source) k)) := by
  have hs := getElem?_startsAfter 0 source k
  rw [h, Option.map_some, Nat.zero_add] at hs
  rw [start?, if_pos (by omega), show ((k + 1 : Nat) - 1 : Int).toNat = k by omega]
  exact hs

/-- A column within a line has its offset right there. -/
theorem offsetOf_ofNat {source line : List Char} {k column : Nat}
    (h : (lines source)[k]? = some line) (hc : column ≤ width line) :
    (ofSource source).offsetOf (.ofNat (k + 1) column) =
      .int (width (beforeLine (lines source) k) + column : Nat) := by
  obtain ⟨after, ha⟩ := exists_eq_beforeLine_append h
  have hw := congrArg width ha
  simp only [width_append] at hw
  simp only [offsetOf, Position.ofNat, start?_ofSource h, offsetFrom]
  rw [if_pos (by omega), Number.int.injEq]
  change min _ (width source : Int) = _
  omega

end LineIndex
end Marginalia
