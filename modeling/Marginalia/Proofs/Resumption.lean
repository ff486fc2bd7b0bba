import Marginalia.Proofs.LineComment

/-!
# Reading a line in parts

The searches for block comments and for the line comment read a line from left
to right. What they make of a part of it does not depend on what follows, as
long as no delimiter lies across the cut: the search for blocks goes over the
text in front of a block that it finds, and the search for the line comment
goes over a text, or quits in it, unless a line comment starts there.
-/

namespace Marginalia
namespace Comment

open Text

namespace Quote

theorem step_of_plain {c : Char} (hquote : isQuote c = false) (hslash : c ≠ '\\') (q : Quote) :
    q.step c = { q with escaped := false } := by
  simp [step, hquote, hslash]

theorem step_eq_outside {q : Quote} {c : Char} (h : (q.step c).isInside = false) :
    q.step c = outside := by
  unfold step at h ⊢
  split_ifs at h ⊢ with hquote hslash
  · split at h
    · simp [isInside] at h
    · split_ifs at h ⊢
      · rfl
      · simp [isInside] at h
  · obtain ⟨-, hopen⟩ : _ ∧ q.opened.isSome := by simpa using hslash
    simp [isInside, hopen] at h
  · have hopen : q.opened = none := by simpa [isInside] using h
    simp [outside, hopen]

theorem after_eq_outside {cs : List Char} (h : (outside.after cs).isInside = false) :
    outside.after cs = outside := by
  rcases List.eq_nil_or_concat cs with rfl | ⟨cs, c, rfl⟩
  · rfl
  · rw [List.concat_eq_append, after_append] at h ⊢
    exact step_eq_outside h

/-- The quote that a text leaves open. -/
def leftOpen (cs : List Char) : Option Char := (outside.after cs).opened

/-- Of the text in a block comment, what is behind it sees the open quote only. -/
theorem after_delimit (inner : List Char) :
    outside.after (Kind.block.delimit inner) = { opened := leftOpen inner, escaped := false } := by
  have hslash : ∀ q : Quote, q.step '/' = { q with escaped := false } :=
    step_of_plain (by decide) (by decide)
  have hstar : ∀ q : Quote, q.step '*' = { q with escaped := false } :=
    step_of_plain (by decide) (by decide)
  simp only [Kind.delimit, after_cons, after_append, after_nil, hslash, hstar]
  rfl

end Quote

/-- A text without a closing delimiter in it. -/
def IsUnclosed (inner : List Char) : Prop := ¬ ['*', '/'] <:+: inner

instance (inner : List Char) : Decidable (IsUnclosed inner) :=
  inferInstanceAs (Decidable (¬ _))

theorem isUnclosed_cons {c : Char} {inner : List Char} (h : IsUnclosed (c :: inner)) :
    IsUnclosed inner :=
  fun hinner => h (List.infix_cons hinner)

theorem cutAtClose_of_isUnclosed {inner : List Char} (h : IsUnclosed inner) (after : List Char) :
    cutAtClose (inner ++ '*' :: '/' :: after) = some (inner, after) := by
  induction inner with
  | nil => rfl
  | cons c inner ih =>
    have hnot : ∀ rest, c = '*' → inner ++ '*' :: '/' :: after = '/' :: rest → False := by
      intro rest hc hrest
      rcases inner with _ | ⟨d, inner⟩
      · simp at hrest
      · obtain rfl : d = '/' := by simpa using (List.cons.inj hrest).1
        apply h
        rw [hc]
        exact (List.prefix_append ['*', '/'] inner).isInfix
    rw [List.cons_append, cutAtClose.eq_3 _ _ hnot, ih (isUnclosed_cons h)]
    rfl

theorem isUnclosed_of_endsProperly {inner after : List Char}
    (h : Kind.block.EndsProperly (Kind.block.delimit inner) after) : IsUnclosed inner := by
  rintro ⟨x, y, rfl⟩
  have hstar : (Kind.block.delimit (x ++ ['*', '/'] ++ y))[x.length + 2]? = some '*' := by
    simp [Kind.delimit]
  have hslash : (Kind.block.delimit (x ++ ['*', '/'] ++ y))[x.length + 2 + 1]? = some '/' := by
    simp [Kind.delimit]
  have hend := h (x.length + 2) (by omega) hstar hslash
  simp [Kind.delimit] at hend

theorem isUnclosed_of_cut {cs inner after : List Char} (h : cutAtClose cs = some (inner, after)) :
    IsUnclosed inner := by
  have hends : Kind.block.EndsProperly (Kind.block.delimit inner) after := endsProperly_block h
  exact isUnclosed_of_endsProperly hends

theorem blocksFrom_cons {q : Quote} {c : Char} {rest : List Char}
    (h : q.isInside = false → ∀ r, c :: rest ≠ '/' :: '*' :: r) (column : Nat) :
    blocksFrom column q (c :: rest) = blocksFrom (column + units c) (q.step c) rest := by
  by_cases hopen : ∃ r, c :: rest = '/' :: '*' :: r
  · obtain ⟨r, hr⟩ := hopen
    have hin : q.isInside = true := by
      rw [← Bool.not_eq_false]
      exact fun hout => h hout r hr
    obtain ⟨rfl, rfl⟩ := List.cons.inj hr
    rw [blocksFrom, if_pos hin]
    rfl
  · rw [blocksFrom]
    intro r hc hr
    exact hopen ⟨r, by rw [hc, hr]⟩

theorem blocksFrom_open {q : Quote} (hq : q.isInside = false) {inner rest after : List Char}
    (hcut : cutAtClose rest = some (inner, after)) (column : Nat) :
    blocksFrom column q ('/' :: '*' :: rest) =
      .ofInner .block inner column (column + width (Kind.block.delimit inner)) ::
        blocksFrom (column + width (Kind.block.delimit inner))
          (q.after (Kind.block.delimit inner)) after := by
  have hstop := column_behind_block column inner
  rw [blocksFrom, if_neg (by simp [hq])]
  split
  · next hnone => rw [hcut] at hnone; cases hnone
  · next i a hsome =>
    obtain ⟨rfl, rfl⟩ : inner = i ∧ after = a := by simpa [hcut] using hsome
    rw [hstop]
    rfl

theorem exists_append_of_width_le {a b c d : List Char} (h : a ++ b = c ++ d)
    (hw : width a ≤ width c) : ∃ e, c = a ++ e ∧ b = e ++ d := by
  rcases List.append_eq_append_iff.mp h with ⟨e, hc, hb⟩ | ⟨e, rfl, rfl⟩
  · exact ⟨e, hc, hb⟩
  · rcases e with _ | ⟨x, e⟩
    · exact ⟨[], by simp, rfl⟩
    · have hpos := units_pos x
      simp only [width_append, width_cons] at hw
      omega

/-- Whatever begins with a slash behind a text, the search for blocks finds the same in the text and
goes on behind it. -/
def GoesOver (column : Nat) (q : Quote) (before : List Char) : Prop :=
  ∃ found, ∀ others, blocksFrom column q (before ++ '/' :: others) =
    found ++ blocksFrom (column + width before) (q.after before) ('/' :: others)

theorem goesOver_nil (column : Nat) (q : Quote) : GoesOver column q [] := ⟨[], fun _ => rfl⟩

theorem goesOver_cons {column : Nat} {q : Quote} {c : Char} {before : List Char}
    (h : q.isInside = false → ∀ others r, c :: (before ++ '/' :: others) ≠ '/' :: '*' :: r)
    (hbefore : GoesOver (column + units c) (q.step c) before) :
    GoesOver column q (c :: before) := by
  obtain ⟨found, hfound⟩ := hbefore
  refine ⟨found, fun others => ?_⟩
  rw [List.cons_append, blocksFrom_cons fun hout => h hout others, hfound, width_cons,
    Quote.after_cons, Nat.add_assoc]

theorem goesOver_block {column : Nat} {q : Quote} {inner before : List Char}
    (hq : q.isInside = false) (hinner : IsUnclosed inner)
    (hbefore : GoesOver (column + width (Kind.block.delimit inner))
      (q.after (Kind.block.delimit inner)) before) :
    GoesOver column q (Kind.block.delimit inner ++ before) := by
  obtain ⟨found, hfound⟩ := hbefore
  refine ⟨.ofInner .block inner column (column + width (Kind.block.delimit inner)) :: found,
    fun others => ?_⟩
  have htext : Kind.block.delimit inner ++ before ++ '/' :: others =
      '/' :: '*' :: (inner ++ '*' :: '/' :: (before ++ '/' :: others)) := by
    simp [Kind.delimit]
  rw [htext, blocksFrom_open hq (cutAtClose_of_isUnclosed hinner _), hfound, width_append,
    Quote.after_append, Nat.add_assoc, List.cons_append]

/-- Up to the start of a block that is found, the search does not depend on what follows. -/
theorem goesOver_of_mem {column : Nat} {q : Quote} {before rest : List Char} {m : Match}
    (h : m ∈ blocksFrom column q (before ++ '/' :: rest))
    (hstart : m.startColumn = column + width before) : GoesOver column q before := by
  generalize htext : before ++ '/' :: rest = cs at h
  fun_induction blocksFrom column q cs generalizing before with
  | case1 => simp at h
  | case2 column q r hin ih =>
    rcases before with _ | ⟨c, before⟩
    · exact goesOver_nil column q
    · obtain ⟨rfl, hr⟩ := List.cons.inj htext
      refine goesOver_cons (by simp [hin]) (ih ?_ hr h)
      rw [hstart, width_cons, Nat.add_assoc]
      rfl
  | case3 => simp at h
  | case4 column q r hout inner after hcut hlen stop =>
    rename_i ih
    have hq : q.isInside = false := by simpa using hout
    have hwidth : stop = column + width (Kind.block.delimit inner) :=
      column_behind_block column inner
    rcases List.mem_cons.mp h with rfl | h
    · -- The block itself starts here, so nothing stands before it.
      rcases before with _ | ⟨c, before⟩
      · exact goesOver_nil column q
      · have hpos := units_pos c
        simp only [Match.ofInner, width_cons] at hstart
        omega
    · have hle : stop ≤ m.startColumn := startColumn_of_mem_blocksFrom h
      obtain ⟨e, rfl, rfl⟩ :=
        exists_append_of_width_le ((opening_eq_delimit hcut).symm.trans htext.symm) (by omega)
      rw [width_append, ← Nat.add_assoc, ← hwidth] at hstart
      have he := ih hstart rfl h
      rw [hwidth] at he
      exact goesOver_block hq (isUnclosed_of_cut hcut) he
  | case5 column q c r hc ih =>
    rcases before with _ | ⟨d, before⟩
    · exact goesOver_nil column q
    · obtain ⟨rfl, hr⟩ := List.cons.inj htext
      refine goesOver_cons (fun _ others r' hopen => ?_) (ih ?_ hr h)
      · obtain ⟨rfl, hnext⟩ := List.cons.inj hopen
        rcases before with _ | ⟨x, before⟩
        · simp at hnext
        · obtain rfl : x = '*' := (List.cons.inj hnext).1
          exact hc _ rfl hr.symm
      · rw [hstart, width_cons, Nat.add_assoc]

theorem lineCommentFrom_cons {found : List Match} {column : Nat} {c : Char} {rest : List Char}
    (h : ∀ r, c :: rest = '/' :: '/' :: r → ¬ IsClear found column) (q : Quote) :
    lineCommentFrom found column q (c :: rest) =
      lineCommentFrom found (column + units c) (q.step c) rest := by
  by_cases hpair : ∃ r, c :: rest = '/' :: '/' :: r
  · obtain ⟨r, hr⟩ := hpair
    have hcovered : found.any (·.covers column) = true := by
      simpa [IsClear] using h r hr
    obtain ⟨rfl, rfl⟩ := List.cons.inj hr
    rw [lineCommentFrom, if_pos hcovered]
    rfl
  · rw [lineCommentFrom]
    intro r hc hr
    exact hpair ⟨r, by rw [hc, hr]⟩

/-- At a clear pair of slashes the search ends: with a line comment, or in quotes without one. -/
theorem lineCommentFrom_pair {found : List Match} {column : Nat} (h : IsClear found column)
    (q : Quote) (rest : List Char) :
    lineCommentFrom found column q ('/' :: '/' :: rest) =
      if q.isInside then none
      else some (.ofInner .line rest column (column + 2 + width rest)) := by
  rw [lineCommentFrom, if_neg (by simpa [IsClear] using h)]

theorem isInside_of_pair {found : List Match} {column : Nat} {q : Quote} {rest : List Char}
    (hclear : IsClear found column)
    (h : ∀ t, lineCommentFrom found column q ('/' :: '/' :: rest) = some t →
      column < t.startColumn) : q.isInside = true := by
  rw [← Bool.not_eq_false]
  intro hout
  rw [lineCommentFrom_pair hclear, hout] at h
  exact Nat.lt_irrefl column (h _ rfl)

/-- Matches that cover the same columns are the same to the search for the line comment. -/
theorem lineCommentFrom_congr {found others : List Match}
    (h : ∀ p, found.any (·.covers p) = others.any (·.covers p)) (column : Nat) (q : Quote)
    (cs : List Char) : lineCommentFrom found column q cs = lineCommentFrom others column q cs := by
  fun_induction lineCommentFrom found column q cs with
  | case1 => rfl
  | case2 column q rest hcovered ih =>
    rw [lineCommentFrom, if_pos (h column ▸ hcovered), ih]
  | case3 column q rest hclear hin =>
    rw [lineCommentFrom, if_neg (h column ▸ hclear), if_pos hin]
  | case4 column q rest hclear hin =>
    rw [lineCommentFrom, if_neg (h column ▸ hclear), if_neg hin]
  | case5 column q c rest hc ih =>
    rw [lineCommentFrom.eq_3 _ _ _ _ _ hc, ih]

theorem lineCommentFrom_covered {found : List Match} {column : Nat} {text : List Char}
    (h : ∀ p, column ≤ p → p < column + width text → ¬ IsClear found p) (q : Quote)
    (rest : List Char) :
    lineCommentFrom found column q (text ++ rest) =
      lineCommentFrom found (column + width text) (q.after text) rest := by
  induction text generalizing column q with
  | nil => rfl
  | cons c text ih =>
    have hpos := units_pos c
    simp only [width_cons] at h
    rw [List.cons_append, lineCommentFrom_cons fun _ _ => h column le_rfl (by omega), ih,
      width_cons, Quote.after_cons, Nat.add_assoc]
    intro p hle hlt
    exact h p (by omega) (by omega)

theorem startColumn_of_lineCommentFrom {found : List Match} {column : Nat} {q : Quote}
    {cs : List Char} {m : Match} (h : lineCommentFrom found column q cs = some m) :
    column ≤ m.startColumn := by
  obtain ⟨before, after, -, -, rfl⟩ := lineCommentFrom_eq_some_iff.mp h
  exact Nat.le_add_right _ _

theorem lineCommentFrom_eq_none {found : List Match} {column : Nat} {q : Quote} {cs : List Char}
    (h : ¬ ['/', '/'] <:+: cs) : lineCommentFrom found column q cs = none := by
  rw [Option.eq_none_iff_forall_ne_some]
  intro m hm
  obtain ⟨before, after, hfirst, -, -⟩ := lineCommentFrom_eq_some_iff.mp hm
  exact h ⟨before, after, by simp [hfirst.eq]⟩

theorem exists_append_slash (before others : List Char) :
    ∃ tail, before ++ '/' :: others = before.headD '/' :: tail := by
  cases before with
  | nil => exact ⟨others, rfl⟩
  | cons d before => exact ⟨before ++ '/' :: others, rfl⟩

/-- Where no line comment starts in a text, the search goes over the text or quits in it, whatever
begins with a slash behind it and whatever blocks are found there. -/
theorem lineCommentFrom_append {found : List Match} {column : Nat} {q : Quote}
    {before rest : List Char}
    (h : ∀ t, lineCommentFrom found column q (before ++ '/' :: rest) = some t →
      column + width before ≤ t.startColumn) :
    ∃ quits : Bool, ∀ all others,
      (∀ p < column + width before, IsClear all p ↔ IsClear found p) →
      lineCommentFrom all column q (before ++ '/' :: others) =
        if quits then none
        else lineCommentFrom all (column + width before) (q.after before) ('/' :: others) := by
  induction before generalizing column q with
  | nil => exact ⟨false, fun all others _ => rfl⟩
  | cons c before ih =>
    have hpos := units_pos c
    have hnext := exists_append_slash before
    by_cases hpair : c = '/' ∧ before.headD '/' = '/' ∧ IsClear found column
    · -- A clear pair stands here: it is quoted, since no line comment starts at it.
      obtain ⟨rfl, hhead, hclear⟩ := hpair
      rw [hhead] at hnext
      obtain ⟨tail, htail⟩ := hnext rest
      rw [List.cons_append, htail] at h
      have hin : q.isInside = true := isInside_of_pair hclear fun t ht => by
        have hle := h t ht
        rw [width_cons] at hle
        omega
      refine ⟨true, fun all others hall => ?_⟩
      obtain ⟨tail, htail⟩ := hnext others
      have hclear' : IsClear all column :=
        (hall column (by simp only [width_cons]; omega)).mpr hclear
      rw [List.cons_append, htail, lineCommentFrom_pair hclear', hin]
      rfl
    · have hnot : ∀ all others, (IsClear all column ↔ IsClear found column) → ∀ r,
          c :: (before ++ '/' :: others) = '/' :: '/' :: r → ¬ IsClear all column := by
        intro all others hall r hr hclear
        obtain ⟨tail, htail⟩ := hnext others
        rw [htail] at hr
        obtain ⟨rfl, hrest⟩ := List.cons.inj hr
        exact hpair ⟨rfl, (List.cons.inj hrest).1, hall.mp hclear⟩
      have hlater : ∀ t, lineCommentFrom found (column + units c) (q.step c)
          (before ++ '/' :: rest) = some t → column + units c + width before ≤ t.startColumn := by
        intro t ht
        rw [Nat.add_assoc]
        exact h t (by rwa [List.cons_append, lineCommentFrom_cons (hnot found rest Iff.rfl)])
      obtain ⟨quits, hquits⟩ := ih hlater
      refine ⟨quits, fun all others hall => ?_⟩
      rw [width_cons, ← Nat.add_assoc] at hall ⊢
      rw [List.cons_append, lineCommentFrom_cons (hnot all others (hall column (by omega))),
        hquits all others hall, Quote.after_cons]

end Comment
end Marginalia
