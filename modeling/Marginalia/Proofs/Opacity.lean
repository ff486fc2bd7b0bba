import Marginalia.Proofs.Resumption

/-!
# What a block comment hides

A scan jumps over the text of a block comment when it looks for delimiters, but
the quotes are counted through it. So the text in a block comment can be
replaced by any other of the same width without a change to the other comments
of the line, whatever follows, exactly if both texts leave the same quote open.
-/

namespace Marginalia
namespace Comment

open Text

/-- A line with a block comment between two texts. -/
def lineWith (before inner after : List Char) : List Char :=
  before ++ (Kind.block.delimit inner ++ after)

/-- The column behind a block comment. -/
def columnBehind (before inner : List Char) : Nat := width before + width (Kind.block.delimit inner)

/-- The match of a block comment with the given text in it, behind a text. -/
def blockBehind (before inner : List Char) : Match :=
  .ofInner .block inner (width before) (columnBehind before inner)

/-- The quotes behind a block comment that begins outside of quotes. -/
def quoteBehind (inner : List Char) : Quote := { opened := Quote.leftOpen inner, escaped := false }

def blocksBehind (before inner after : List Char) : List Match :=
  blocksFrom (columnBehind before inner) (quoteBehind inner) after

/-- Up to a block comment a line is read in one way, whatever is in the comment and behind it: the
given blocks are found, and the search for the line comment quits there or goes on behind. -/
structure ReadsUpTo (before : List Char) (found : List Match) (quits : Bool) : Prop where
  blocks_eq : ∀ inner after, IsUnclosed inner → blocks (lineWith before inner after) =
    found ++ blockBehind before inner :: blocksBehind before inner after
  lineComment_eq : ∀ inner after, IsUnclosed inner →
    lineComment (blocks (lineWith before inner after)) (lineWith before inner after) =
      if quits then none
      else lineCommentFrom (blocks (lineWith before inner after)) (columnBehind before inner)
        (quoteBehind inner) after

theorem exists_lineWith_of_mem_blocks {line : List Char} {m : Match} (h : m ∈ blocks line) :
    ∃ before inner after, line = lineWith before inner after ∧ m = blockBehind before inner ∧
      IsUnclosed inner ∧ Quote.outside.after before = Quote.outside := by
  obtain ⟨hkind, before, inner, after, hstands⟩ := standsOn_of_mem_blocks h
  obtain ⟨kind, text, startColumn, endColumn⟩ := m
  obtain rfl : kind = .block := hkind
  obtain ⟨hline, hstart, hend, htext, hquote, hends⟩ := hstands
  refine ⟨before, inner, after, hline, ?_, isUnclosed_of_endsProperly hends,
    Quote.after_eq_outside hquote⟩
  simp only [blockBehind, Match.ofInner, columnBehind, Match.mk.injEq, true_and]
  exact ⟨htext, hstart, hend⟩

theorem mem_scanLine_block {line : List Char} {m : Match} (h : m ∈ scanLine .both line)
    (hkind : m.kind = .block) :
    m ∈ blocks line ∧ ∀ t, lineComment (blocks line) line = some t →
      m.startColumn < t.startColumn := by
  rcases List.mem_append.mp h with h | h
  · obtain ⟨hm, hkept⟩ := List.mem_filter.mp h
    refine ⟨hm, fun t ht => ?_⟩
    rw [ht] at hkept
    simpa using hkept
  · have ht := Option.mem_toList.mp h
    rw [(standsOn_of_lineComment ht).1] at hkind
    cases hkind

theorem lineWith_eq (before inner after : List Char) : lineWith before inner after =
    before ++ '/' :: ('*' :: (inner ++ '*' :: '/' :: after)) := by
  simp [lineWith, Kind.delimit]

theorem isClear_append_blockBehind {before : List Char} {p : Nat} (hp : p < width before)
    (found : List Match) (inner after : List Char) :
    IsClear (found ++ blockBehind before inner :: blocksBehind before inner after) p ↔
      IsClear found p := by
  have hlater : ∀ m ∈ blockBehind before inner :: blocksBehind before inner after,
      m.covers p = false := by
    intro m hm
    have hlt : p < m.startColumn := by
      rcases List.mem_cons.mp hm with rfl | hm
      · exact hp
      · have hle : columnBehind before inner ≤ m.startColumn := startColumn_of_mem_blocksFrom hm
        rw [columnBehind] at hle
        omega
    simp [Match.covers, hlt]
  simp only [isClear_iff, List.forall_mem_append, and_iff_left hlater]

theorem not_isClear_append_blockBehind {before inner : List Char} {p : Nat}
    (hle : width before ≤ p) (hlt : p < columnBehind before inner) (found : List Match)
    (after : List Char) :
    ¬ IsClear (found ++ blockBehind before inner :: blocksBehind before inner after) p := by
  intro hclear
  have hnot := isClear_iff.mp hclear (blockBehind before inner) (by simp)
  simp [Match.covers, blockBehind, Match.ofInner, hle, hlt] at hnot

/-- The search for blocks finds the same in front of a block comment, whatever is in it. -/
theorem exists_blocks_lineWith {before inner after : List Char}
    (hquote : Quote.outside.after before = Quote.outside)
    (h : blockBehind before inner ∈ blocks (lineWith before inner after)) :
    ∃ found, ∀ other rest, IsUnclosed other → blocks (lineWith before other rest) =
      found ++ blockBehind before other :: blocksBehind before other rest := by
  obtain ⟨found, hfound⟩ : GoesOver 0 Quote.outside before := by
    rw [lineWith_eq] at h
    exact goesOver_of_mem h (Nat.zero_add _).symm
  rw [hquote, Nat.zero_add] at hfound
  refine ⟨found, fun other rest hother => ?_⟩
  rw [blocks, lineWith_eq, hfound,
    blocksFrom_open (q := Quote.outside) rfl (cutAtClose_of_isUnclosed hother rest),
    Quote.after_delimit]
  rfl

/-- Up to a block comment that is reported, a line is read in one way. -/
theorem exists_readsUpTo {before inner after : List Char} (hinner : IsUnclosed inner)
    (hquote : Quote.outside.after before = Quote.outside)
    (h : blockBehind before inner ∈ scanLine .both (lineWith before inner after)) :
    ∃ found quits, ReadsUpTo before found quits := by
  obtain ⟨hmem, hkept⟩ := mem_scanLine_block h rfl
  obtain ⟨found, hblocks⟩ := exists_blocks_lineWith hquote hmem
  have hlater : ∀ t, lineCommentFrom (blocks (lineWith before inner after)) 0 Quote.outside
      (before ++ '/' :: ('*' :: (inner ++ '*' :: '/' :: after))) = some t →
        0 + width before ≤ t.startColumn := by
    intro t ht
    rw [← lineWith_eq] at ht
    rw [Nat.zero_add]
    exact (hkept t ht).le
  obtain ⟨quits, hquits⟩ := lineCommentFrom_append hlater
  rw [hquote, Nat.zero_add] at hquits
  refine ⟨found, quits, hblocks, fun other rest hother => ?_⟩
  have hbefore : ∀ p < width before, IsClear (blocks (lineWith before other rest)) p ↔
      IsClear (blocks (lineWith before inner after)) p := by
    intro p hp
    rw [hblocks other rest hother, hblocks inner after hinner, isClear_append_blockBehind hp,
      isClear_append_blockBehind hp]
  have hcovered : ∀ p, width before ≤ p →
      p < width before + width (Kind.block.delimit other) →
        ¬ IsClear (blocks (lineWith before other rest)) p := by
    intro p hle hlt
    rw [hblocks other rest hother]
    exact not_isClear_append_blockBehind hle hlt found rest
  have htext : '/' :: '*' :: (other ++ '*' :: '/' :: rest) = Kind.block.delimit other ++ rest := by
    simp [Kind.delimit]
  calc lineComment (blocks (lineWith before other rest)) (lineWith before other rest)
    _ = if quits then none
        else lineCommentFrom (blocks (lineWith before other rest)) (width before) Quote.outside
          (Kind.block.delimit other ++ rest) := by
      rw [lineComment, lineWith_eq, hquits _ _ (by rwa [← lineWith_eq]), htext]
    _ = _ := by
      rw [lineCommentFrom_covered hcovered, Quote.after_delimit]
      rfl

/-- Two texts in one block comment give the line the same comments apart from that one, when a text
follows. -/
def SameOthers (before inner other after : List Char) : Prop :=
  ∃ earlier later,
    scanLine .both (lineWith before inner after) = earlier ++ blockBehind before inner :: later ∧
    scanLine .both (lineWith before other after) = earlier ++ blockBehind before other :: later

/-- Whether a block is reported beside a line comment, which takes in what is behind its start. -/
def isKept (tail : Option Match) (b : Match) : Bool :=
  tail.all fun t => decide (b.startColumn < t.startColumn)

theorem ReadsUpTo.scanLine_eq {before inner after : List Char} {found : List Match} {quits : Bool}
    (h : ReadsUpTo before found quits) (hinner : IsUnclosed inner) {tail : Option Match}
    (htail : lineComment (blocks (lineWith before inner after)) (lineWith before inner after) =
      tail) :
    scanLine .both (lineWith before inner after) =
      found.filter (isKept tail) ++ blockBehind before inner ::
        ((blocksBehind before inner after).filter (isKept tail) ++ tail.toList) := by
  have hkept : isKept tail (blockBehind before inner) = true := by
    rw [h.lineComment_eq inner after hinner] at htail
    cases tail with
    | none => rfl
    | some t =>
      split_ifs at htail
      have hle := startColumn_of_lineCommentFrom htail
      have hpos := width_delimit_pos .block inner
      rw [columnBehind] at hle
      have hlt : (blockBehind before inner).startColumn < t.startColumn := by
        change width before < t.startColumn
        omega
      simp [isKept, hlt]
  have hscan : scanLine .both (lineWith before inner after) =
      (blocks (lineWith before inner after)).filter (isKept tail) ++ tail.toList := by
    rw [← htail]
    rfl
  rw [hscan, h.blocks_eq inner after hinner, List.filter_append, List.filter_cons_of_pos hkept,
    List.append_assoc, List.cons_append]

/-- Two texts of one width that leave the same quote open give the line the same other comments. -/
theorem ReadsUpTo.sameOthers {before inner other : List Char} {found : List Match} {quits : Bool}
    (h : ReadsUpTo before found quits) (hinner : IsUnclosed inner) (hother : IsUnclosed other)
    (hwidth : width other = width inner) (hopen : Quote.leftOpen other = Quote.leftOpen inner)
    (after : List Char) : SameOthers before inner other after := by
  have hcolumn : columnBehind before other = columnBehind before inner := by
    simp only [columnBehind, width_delimit_block, hwidth]
  have hquote : quoteBehind other = quoteBehind inner := by
    simp only [quoteBehind, hopen]
  have hbehind : blocksBehind before other after = blocksBehind before inner after := by
    simp only [blocksBehind, hcolumn, hquote]
  have hcovers : ∀ p, (blocks (lineWith before other after)).any (·.covers p) =
      (blocks (lineWith before inner after)).any (·.covers p) := by
    intro p
    rw [h.blocks_eq other after hother, h.blocks_eq inner after hinner, hbehind]
    simp [Match.covers, blockBehind, Match.ofInner, hcolumn]
  have htail : lineComment (blocks (lineWith before other after)) (lineWith before other after) =
      lineComment (blocks (lineWith before inner after)) (lineWith before inner after) := by
    rw [h.lineComment_eq other after hother, h.lineComment_eq inner after hinner, hcolumn, hquote,
      lineCommentFrom_congr hcovers]
  refine ⟨_, _, h.scanLine_eq hinner rfl, ?_⟩
  rw [h.scanLine_eq hother htail, hbehind]

/-- A text that closes the given quote, if any, and goes on with an empty block comment. -/
def probe (quote : Option Char) : List Char := quote.toList ++ ['/', '*', '*', '/']

namespace Quote

theorem isQuote_of_opened_step {q : Quote} (hq : ∀ o, q.opened = some o → isQuote o = true)
    {c o : Char} (h : (q.step c).opened = some o) : isQuote o = true := by
  unfold step at h
  split_ifs at h with hquote hslash
  · obtain ⟨hc, -⟩ : isQuote c = true ∧ _ := by simpa using hquote
    split at h
    · rwa [← Option.some.inj h]
    · next o' ho =>
      split_ifs at h
      · cases h
      · exact hq o (ho.trans h)
  · exact hq o h
  · exact hq o h

theorem isQuote_of_leftOpen {cs : List Char} {o : Char} (h : leftOpen cs = some o) :
    isQuote o = true := by
  have hrun : ∀ (cs : List Char) (q : Quote), (∀ o, q.opened = some o → isQuote o = true) →
      ∀ o, (q.after cs).opened = some o → isQuote o = true := by
    intro cs
    induction cs with
    | nil => exact fun q hq => hq
    | cons c cs ih => exact fun q hq => ih _ fun o => isQuote_of_opened_step hq
  exact hrun cs outside (by simp [outside]) o h

theorem isInside_after_toList_iff {opened quote : Option Char}
    (hquote : ∀ o, quote = some o → isQuote o = true) :
    ((Quote.mk opened false).after quote.toList).isInside = false ↔ opened = quote := by
  cases quote with
  | none => simp [isInside]
  | some o =>
    have ho := hquote o rfl
    cases opened with
    | none => simp [step, ho, isInside]
    | some o' =>
      by_cases heq : o' = o
      · simp [step, ho, heq, isInside, outside]
      · simp [step, ho, heq, Ne.symm heq, isInside]

end Quote

theorem blocksFrom_emptyBlock {q : Quote} (hq : q.isInside = false) (column : Nat) :
    (blocksFrom column q ['/', '*', '*', '/']).length = 1 := by
  rw [blocksFrom_open hq (rfl : cutAtClose ['*', '/'] = some ([], [])), blocksFrom]
  rfl

theorem blocksFrom_emptyBlock_quoted {q : Quote} (hq : q.isInside = true) (column : Nat) :
    blocksFrom column q ['/', '*', '*', '/'] = [] := by
  rw [blocksFrom_cons (by simp [hq]), blocksFrom_cons (by simp), blocksFrom_cons (by simp),
    blocksFrom_cons (by simp), blocksFrom]

/-- Behind a quote that it closes, and only there, the search finds the empty block comment. -/
theorem length_blocksFrom_probe {opened quote : Option Char}
    (hquote : ∀ o, quote = some o → Quote.isQuote o = true) (column : Nat) :
    (blocksFrom column ⟨opened, false⟩ (probe quote)).length = if opened = quote then 1 else 0 := by
  have hbehind : blocksFrom column ⟨opened, false⟩ (probe quote) =
      blocksFrom (column + width quote.toList) ((Quote.mk opened false).after quote.toList)
        ['/', '*', '*', '/'] := by
    cases quote with
    | none => rfl
    | some o =>
      have ho : o ≠ '/' := by
        rintro rfl
        exact absurd (hquote '/' rfl) (by decide)
      exact blocksFrom_cons (fun _ r hr => ho (List.cons.inj hr).1) column
  rw [hbehind]
  split_ifs with h
  · exact blocksFrom_emptyBlock ((Quote.isInside_after_toList_iff hquote).mpr h) _
  · rw [blocksFrom_emptyBlock_quoted]
    · rfl
    · rw [← Bool.not_eq_false, Quote.isInside_after_toList_iff hquote]
      exact h

theorem noPair_probe {quote : Option Char}
    (hquote : ∀ o, quote = some o → Quote.isQuote o = true) : ¬ ['/', '/'] <:+: probe quote := by
  cases quote with
  | none => decide
  | some o =>
    have ho : o ≠ '/' := by
      rintro rfl
      exact absurd (hquote '/' rfl) (by decide)
    simp [probe, List.infix_cons_iff, ho.symm]

theorem ReadsUpTo.length_scanLine {before inner after : List Char} {found : List Match}
    {quits : Bool} (h : ReadsUpTo before found quits) (hinner : IsUnclosed inner)
    (hpair : ¬ ['/', '/'] <:+: after) :
    (scanLine .both (lineWith before inner after)).length =
      found.length + 1 + (blocksBehind before inner after).length := by
  have htail : lineComment (blocks (lineWith before inner after)) (lineWith before inner after) =
      none := by
    rw [h.lineComment_eq inner after hinner, lineCommentFrom_eq_none hpair, ite_self]
  have hkept : isKept none = fun _ => true := rfl
  rw [h.scanLine_eq hinner htail, hkept]
  simp
  omega

/-- For every block comment that a line is reported to have, with a text in it: another text of the
same width without a closing delimiter can take its place without a change to the other comments,
whatever follows, exactly if it leaves the same quote open. -/
theorem replace_text_iff {line : List Char} {m : Match} (hm : m ∈ scanLine .both line)
    (hkind : m.kind = .block) :
    ∃ before inner after, line = lineWith before inner after ∧ m = blockBehind before inner ∧
      ∀ other, width other = width inner → IsUnclosed other →
        ((∀ rest, SameOthers before inner other rest) ↔
          Quote.leftOpen other = Quote.leftOpen inner) := by
  obtain ⟨before, inner, after, rfl, rfl, hinner, hquote⟩ :=
    exists_lineWith_of_mem_blocks (mem_scanLine_block hm hkind).1
  obtain ⟨found, quits, h⟩ := exists_readsUpTo hinner hquote hm
  refine ⟨before, inner, after, rfl, rfl, fun other hwidth hother => ⟨fun hsame => ?_, ?_⟩⟩
  · -- The probe closes what the first text leaves open, and shows a block exactly then.
    have hisQuote : ∀ o, Quote.leftOpen inner = some o → Quote.isQuote o = true :=
      fun o => Quote.isQuote_of_leftOpen
    obtain ⟨earlier, later, hfirst, hsecond⟩ := hsame (probe (Quote.leftOpen inner))
    have hlen := congrArg List.length hfirst
    have hlen' := congrArg List.length hsecond
    rw [h.length_scanLine hinner (noPair_probe hisQuote), blocksBehind, quoteBehind,
      length_blocksFrom_probe hisQuote, if_pos rfl] at hlen
    rw [h.length_scanLine hother (noPair_probe hisQuote), blocksBehind, quoteBehind,
      length_blocksFrom_probe hisQuote] at hlen'
    by_contra hne
    rw [if_neg hne] at hlen'
    simp only [List.length_append, List.length_cons] at hlen hlen'
    omega
  · exact fun hopen rest => h.sameOthers hinner hother hwidth hopen rest

/-- A comment with a pair of quotes in it, before a line comment. -/
theorem replace_text_iff_paired :
    let line := "/* 'a' */ x // c".toList
    let m : Match := ⟨.block, "'a'", 0, 9⟩
    m ∈ scanLine .both line ∧ m.kind = .block ∧
      ∃ before inner after, line = lineWith before inner after ∧ m = blockBehind before inner ∧
        ∀ other, width other = width inner → IsUnclosed other →
          ((∀ rest, SameOthers before inner other rest) ↔
            Quote.leftOpen other = Quote.leftOpen inner) := by
  intro line m
  have hm : m ∈ scanLine .both line := by decide +kernel
  exact ⟨hm, rfl, replace_text_iff hm rfl⟩

/-- A single quote in a block comment hides the line comment behind it, which is reported when a
blank stands in its place. -/
theorem quote_in_block_hides_lineComment :
    blockBehind [] "   ".toList ∈ scanLine .both (lineWith [] "   ".toList " // x".toList) ∧
      width " ' ".toList = width "   ".toList ∧ IsUnclosed " ' ".toList ∧
      ⟨.line, "x", 8, 12⟩ ∈ scanLine .both (lineWith [] "   ".toList " // x".toList) ∧
      ¬ SameOthers [] "   ".toList " ' ".toList " // x".toList := by
  have hblank : scanLine .both (lineWith [] "   ".toList " // x".toList) =
      [⟨.block, "", 0, 7⟩, ⟨.line, "x", 8, 12⟩] := by decide +kernel
  have hquote : scanLine .both (lineWith [] " ' ".toList " // x".toList) =
      [⟨.block, "'", 0, 7⟩] := by decide +kernel
  refine ⟨by decide +kernel, by decide, by decide, ?_, ?_⟩
  · rw [hblank]
    exact List.mem_cons_of_mem _ (List.mem_singleton_self _)
  · rintro ⟨earlier, later, hfirst, hsecond⟩
    have hlen := congrArg List.length (hblank.symm.trans hfirst)
    have hlen' := congrArg List.length (hquote.symm.trans hsecond)
    simp only [List.length_append, List.length_cons, List.length_nil] at hlen hlen'
    omega

end Comment
end Marginalia
