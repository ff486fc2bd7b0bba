import Marginalia.Proofs.Nearest
import Marginalia.Proofs.Rounding

/-!
# Nodes inside the chosen node

Where the nearest policy goes by containment, it compares the line counts and
the column widths of the candidates and never asks whether one is inside
another. A span inside another has fewer lines, or as many lines and fewer
columns, so the chosen node is innermost as long as these measures are exact.
Measures beyond `2 ^ 53` are rounded. The order survives that, but two measures
may become one, and then the outer node is chosen if it comes first.
-/

namespace Marginalia

namespace Number

def isInteger : Number → Bool
  | .int _ => true
  | _ => false

variable {x y : Number}

theorem lt_iff_numerator_lt (hx : x.isInteger) (hy : y.isInteger) :
    x < y ↔ x.numerator < y.numerator := by
  cases x <;> cases y <;> simp_all [isInteger, numerator]

theorem eq_iff_numerator_eq (hx : x.isInteger) (hy : y.isInteger) :
    x = y ↔ x.numerator = y.numerator := by
  cases x <;> cases y <;> simp_all [isInteger, numerator]

theorem sub?_eq_ofInt (hx : x.isInteger) (hy : y.isInteger) :
    x.sub? y = some (ofInt (x.numerator - y.numerator)) := by
  cases x <;> cases y <;> simp_all [isInteger, sub?, nearest, numerator, exponent, twoTo]

/-- Two different integers that are rounded to one number. -/
structure RoundAlike (a b : Int) : Prop where
  ne : a ≠ b
  eq : ofInt a = ofInt b

theorem RoundAlike.large {a b : Int} (h : RoundAlike a b) :
    twoTo 53 < a.natAbs ∨ twoTo 53 < b.natAbs := by
  by_contra hsmall
  rw [not_or, Nat.not_lt, Nat.not_lt] at hsmall
  have heq := h.eq
  rw [ofInt_eq_int hsmall.1, ofInt_eq_int hsmall.2] at heq
  exact h.ne (Number.int.inj heq)

/-- The lesser of two integers is rounded to a lesser number, unless the two are rounded alike. -/
theorem ofInt_lt_or_roundAlike {a b : Int} (h : a < b) : ofInt a < ofInt b ∨ RoundAlike a b := by
  rcases lt_trichotomy (ofInt a) (ofInt b) with hlt | heq | hgt
  · exact .inl hlt
  · exact .inr ⟨h.ne, heq⟩
  · exact (ofInt_le_ofInt h.le hgt).elim

end Number

namespace Position

def IsInteger (p : Position) : Prop := p.line.isInteger ∧ p.column.isInteger

instance (p : Position) : Decidable p.IsInteger := inferInstanceAs (Decidable (_ ∧ _))

variable {p q : Position}

theorem lt_iff_numerator_lt (hp : p.IsInteger) (hq : q.IsInteger) :
    p < q ↔ p.line.numerator < q.line.numerator ∨
      p.line.numerator = q.line.numerator ∧ p.column.numerator < q.column.numerator := by
  rw [lt_def, Number.lt_iff_numerator_lt hp.1 hq.1, Number.eq_iff_numerator_eq hp.1 hq.1,
    Number.lt_iff_numerator_lt hp.2 hq.2]

theorem eq_iff_numerator_eq (hp : p.IsInteger) (hq : q.IsInteger) :
    p = q ↔ p.line.numerator = q.line.numerator ∧ p.column.numerator = q.column.numerator := by
  rw [← Number.eq_iff_numerator_eq hp.1 hq.1, ← Number.eq_iff_numerator_eq hp.2 hq.2]
  cases p
  cases q
  simp

theorem not_lt_of_le (h : p ≤ q) : ¬ q < p := by
  rcases (le_def p q).mp h with hlt | ⟨rfl, -⟩
  · intro hgt
    exact lt_irrefl p (lt_trans hlt hgt)
  · exact lt_irrefl p

theorem not_line_lt_of_not_lt (h : ¬ p < q) : ¬ p.line < q.line := by
  intro hline
  exact h (.inl hline)

end Position

namespace Span

/-- A span between positions with integer coordinates, in whatever order. -/
def IsInteger (s : Span) : Prop := s.start.IsInteger ∧ s.stop.IsInteger

instance (s : Span) : Decidable s.IsInteger := inferInstanceAs (Decidable (_ ∧ _))

/-- The line count of a span with integer coordinates, before it is rounded. -/
def lines (s : Span) : Int := s.stop.line.numerator - s.start.line.numerator

/-- The column width of a span with integer coordinates, before it is rounded. -/
def columns (s : Span) : Int := s.stop.column.numerator - s.start.column.numerator

theorem lineCount_eq {s : Span} (h : s.IsInteger) : s.lineCount = some (.ofInt s.lines) :=
  Number.sub?_eq_ofInt h.2.1 h.1.1

theorem columnWidth_eq {s : Span} (h : s.IsInteger) : s.columnWidth = some (.ofInt s.columns) :=
  Number.sub?_eq_ofInt h.2.2 h.1.2

/-- A span whose measures need no rounding. -/
def IsExact (s : Span) : Prop := s.lines.natAbs ≤ 2 ^ 53 ∧ s.columns.natAbs ≤ 2 ^ 53

instance (s : Span) : Decidable s.IsExact := inferInstanceAs (Decidable (_ ∧ _))

/-- A span that starts not before and ends not after another, and is not the same stretch. -/
structure StrictlyIn (inner outer : Span) : Prop where
  start : ¬ inner.start < outer.start
  stop : ¬ outer.stop < inner.stop
  ne : inner.start ≠ outer.start ∨ inner.stop ≠ outer.stop

instance (inner outer : Span) : Decidable (inner.StrictlyIn outer) :=
  decidable_of_iff (¬ inner.start < outer.start ∧ ¬ outer.stop < inner.stop ∧
    (inner.start ≠ outer.start ∨ inner.stop ≠ outer.stop))
    ⟨fun h => ⟨h.1, h.2.1, h.2.2⟩, fun h => ⟨h.start, h.stop, h.ne⟩⟩

/-- Two spans of different measures that rounding does not tell apart: their line counts differ and
are rounded alike, or these are equal and their column widths differ and are rounded alike. -/
def Blurred (s t : Span) : Prop :=
  Number.RoundAlike s.lines t.lines ∨ s.lines = t.lines ∧ Number.RoundAlike s.columns t.columns

theorem Blurred.not_isExact {s t : Span} (h : s.Blurred t) : ¬ (s.IsExact ∧ t.IsExact) := by
  rintro ⟨hs, ht⟩
  rcases h with hlines | ⟨-, hcolumns⟩
  · rcases hlines.large with hlarge | hlarge
    · exact Nat.not_lt.mpr hs.1 hlarge
    · exact Nat.not_lt.mpr ht.1 hlarge
  · rcases hcolumns.large with hlarge | hlarge
    · exact Nat.not_lt.mpr hs.2 hlarge
    · exact Nat.not_lt.mpr ht.2 hlarge

section StrictlyIn

variable {inner outer : Span}

/-- A span inside another has fewer lines, or as many lines and fewer columns. -/
theorem StrictlyIn.fewer (h : inner.StrictlyIn outer) (hi : inner.IsInteger)
    (ho : outer.IsInteger) :
    inner.lines < outer.lines ∨ inner.lines = outer.lines ∧ inner.columns < outer.columns := by
  obtain ⟨hstart, hstop, hne⟩ := h
  rw [Position.lt_iff_numerator_lt hi.1 ho.1] at hstart
  rw [Position.lt_iff_numerator_lt ho.2 hi.2] at hstop
  rw [Ne, Ne, Position.eq_iff_numerator_eq hi.1 ho.1, Position.eq_iff_numerator_eq hi.2 ho.2] at hne
  unfold lines columns
  omega

/-- If a span starts on the line of a position, so does every span inside it that contains the
position. -/
theorem StrictlyIn.line_eq_of_start (h : inner.StrictlyIn outer) {p : Position}
    (hp : inner.contains p = true) (hline : outer.start.line = p.line) :
    inner.start.line = p.line := by
  obtain ⟨hle, -⟩ : inner.start ≤ p ∧ p ≤ inner.stop := by simpa [contains] using hp
  apply Number.eq_of_not_lt
  · rw [← hline]
    exact Position.not_line_lt_of_not_lt h.start
  · exact Position.not_line_lt_of_not_lt (Position.not_lt_of_le hle)

theorem StrictlyIn.line_eq_of_stop (h : inner.StrictlyIn outer) {p : Position}
    (hp : inner.contains p = true) (hline : outer.stop.line = p.line) :
    inner.stop.line = p.line := by
  obtain ⟨-, hle⟩ : inner.start ≤ p ∧ p ≤ inner.stop := by simpa [contains] using hp
  apply Number.eq_of_not_lt
  · exact Position.not_line_lt_of_not_lt (Position.not_lt_of_le hle)
  · rw [← hline]
    exact Position.not_line_lt_of_not_lt h.stop

end StrictlyIn

end Span

namespace Association

open Outline

/-- A span inside another is the smaller one, unless rounding does not tell them apart. -/
theorem smaller_or_blurred {inner outer : Span} (h : inner.StrictlyIn outer)
    (hi : inner.IsInteger) (ho : outer.IsInteger) :
    smaller inner outer = true ∨ inner.Blurred outer := by
  rw [smaller_iff, Span.lineCount_eq hi, Span.lineCount_eq ho, Span.columnWidth_eq hi,
    Span.columnWidth_eq ho]
  rcases h.fewer hi ho with hlines | ⟨hlines, hcolumns⟩
  · rcases Number.ofInt_lt_or_roundAlike hlines with hlt | halike
    · exact .inl (.inl ⟨_, _, rfl, rfl, hlt⟩)
    · exact .inr (.inl halike)
  · rcases Number.ofInt_lt_or_roundAlike hcolumns with hlt | halike
    · exact .inl (.inr ⟨by rw [hlines], rfl, _, _, rfl, rfl, hlt⟩)
    · exact .inr (.inr ⟨hlines, halike⟩)

/-- The nearest policy goes by containment: some node that contains the start of a comment begins or
ends on its line, or else no node begins on the line after it. -/
def GoesByContainment (nodes : List NodeSpan) (c : Comment) : Prop :=
  (∃ n ∈ nodes, sharesLine c n = true) ∨ ∀ n ∈ nodes, isBelow c n = false

instance (nodes : List NodeSpan) (c : Comment) : Decidable (GoesByContainment nodes c) :=
  inferInstanceAs (Decidable (_ ∨ _))

variable {nodes : List NodeSpan} {c : Comment} {n : NodeSpan}

theorem sharesLine_of_strictlyIn {m : NodeSpan} (hn : sharesLine c n = true)
    (hm : m.span.contains c.start = true) (h : m.span.StrictlyIn n.span) :
    sharesLine c m = true := by
  simp only [sharesLine, hm, Bool.and_true, Bool.or_eq_true, decide_eq_true_eq]
  simp only [sharesLine, Bool.and_eq_true, Bool.or_eq_true, decide_eq_true_eq] at hn
  rcases hn.1 with hline | hline
  · exact .inl (h.line_eq_of_start hm hline)
  · exact .inr (h.line_eq_of_stop hm hline)

theorem least_of_smallest {test : NodeSpan → Bool} (h : smallest (nodes.filter test) = some n) :
    test n = true ∧ ∀ m ∈ nodes, test m = true → smaller m.span n.span = false := by
  have hleast := firstLeast_of_first (ranks_smaller.comap NodeSpan.span) h
  constructor
  · exact (List.mem_filter.mp hleast.mem).2
  · intro m hm htest
    exact hleast.least m (List.mem_filter.mpr ⟨hm, htest⟩)

/-- By containment the policy chooses a least node among those that begin or end on the line of the
comment, or else among all that contain its start. -/
theorem least_of_nearestOwner (howner : nearestOwner nodes c = some n)
    (hrule : GoesByContainment nodes c) :
    (sharesLine c n = true ∧ ∀ m ∈ nodes, sharesLine c m = true → smaller m.span n.span = false) ∨
      n.span.contains c.start = true ∧
        ∀ m ∈ nodes, m.span.contains c.start = true → smaller m.span n.span = false := by
  rcases Option.or_eq_some_iff.mp howner with hshares | ⟨hnone, hother⟩
  · exact .inl (least_of_smallest hshares)
  · rcases hrule with ⟨m, hm, hshares⟩ | hbelow
    · have hnil := first_eq_none.mp hnone
      exact (List.filter_eq_nil_iff.mp hnil m hm hshares).elim
    · have hleft : leftmost (nodes.filter (isBelow c)) = none :=
        first_eq_none.mpr (List.filter_eq_nil_iff.mpr (by simpa using hbelow))
      rw [hleft, Option.none_or] at hother
      exact .inr (least_of_smallest hother)

theorem blurred_of_strictlyIn (hinteger : ∀ m ∈ nodes, m.span.IsInteger)
    (howner : nearestOwner nodes c = some n) (hrule : GoesByContainment nodes c) {m : NodeSpan}
    (hm : m ∈ nodes) (hcontains : m.span.contains c.start = true)
    (hin : m.span.StrictlyIn n.span) : m.span.Blurred n.span := by
  have hnot : smaller m.span n.span = false := by
    rcases least_of_nearestOwner howner hrule with ⟨hshares, hleast⟩ | ⟨-, hleast⟩
    · exact hleast m hm (sharesLine_of_strictlyIn hshares hcontains hin)
    · exact hleast m hm hcontains
  have hn := hinteger n (mem_of_nearestOwner howner)
  rcases smaller_or_blurred hin (hinteger m hm) hn with hsmaller | hblurred
  · rw [hnot] at hsmaller
    exact (Bool.false_ne_true hsmaller).elim
  · exact hblurred

/-- Where the nearest policy goes by containment, the chosen node contains the start of the comment,
and every node that does so too and is strictly inside the chosen one is blurred with it. So among
nodes with exact measures there is none. -/
theorem nearestOwner_innermost (hinteger : ∀ m ∈ nodes, m.span.IsInteger)
    (howner : nearestOwner nodes c = some n) (hrule : GoesByContainment nodes c) :
    owner .nearest nodes c = some n.identifier ∧ n.span.contains c.start = true ∧
      (∀ m ∈ nodes, m.span.contains c.start = true → m.span.StrictlyIn n.span →
        m.span.Blurred n.span) ∧
      (n.span.IsExact → ∀ m ∈ nodes, m.span.IsExact → m.span.contains c.start = true →
        ¬ m.span.StrictlyIn n.span) := by
  refine ⟨congrArg (Option.map NodeSpan.identifier) howner, ?_, ?_, ?_⟩
  · rcases least_of_nearestOwner howner hrule with ⟨hshares, -⟩ | ⟨hcontains, -⟩
    · exact contains_of_sharesLine hshares
    · exact hcontains
  · intro m hm hcontains hin
    exact blurred_of_strictlyIn hinteger howner hrule hm hcontains hin
  · intro hn m hm hexact hcontains hin
    have hblurred := blurred_of_strictlyIn hinteger howner hrule hm hcontains hin
    exact hblurred.not_isExact ⟨hexact, hn⟩

/-- Two blocks of as many lines, one inside the other, both of negative width. -/
theorem nearestOwner_innermost_negative_width :
    let outer : NodeSpan := ⟨"item_0_block", ⟨.ofNat 1 10, .ofNat 3 1, .int 10, .int 30⟩⟩
    let inner : NodeSpan := ⟨"item_1_block", ⟨.ofNat 1 12, .ofNat 3 0, .int 12, .int 29⟩⟩
    let c : Comment := ⟨"x", .line, ⟨.ofNat 1 14, .ofNat 1 18, .int 14, .int 18⟩⟩
    inner.span.StrictlyIn outer.span ∧ outer.span.contains c.start = true ∧
      owner .nearest [outer, inner] c = some "item_1_block" ∧
      ∀ m ∈ [outer, inner], m.span.contains c.start = true → ¬ m.span.StrictlyIn inner.span := by
  intro outer inner c
  have howner : nearestOwner [outer, inner] c = some inner := by decide +kernel
  have hexact : ∀ m ∈ [outer, inner], m.span.IsExact := by decide
  obtain ⟨hid, -, -, hnone⟩ := nearestOwner_innermost (by decide) howner (by decide)
  refine ⟨by decide, by decide, hid, ?_⟩
  intro m hm
  exact hnone (by decide) m hm (hexact m hm)

/-- The widths of two nodes on one line are rounded to one number, so the outer node, which comes
first, is chosen although the other is strictly inside it and contains the comment as well. -/
theorem rounded_widths_hide_inner :
    let far : Number := .int (2 ^ 53 + 4)
    let outer : NodeSpan := ⟨"item_0", ⟨⟨.int 1, .int 0⟩, ⟨.int 1, far⟩, .int 0, far⟩⟩
    let inner : NodeSpan := ⟨"item_1", ⟨⟨.int 1, .int 1⟩, ⟨.int 1, far⟩, .int 1, far⟩⟩
    let c : Comment := ⟨"x", .line, ⟨.ofNat 1 1, .ofNat 1 5, .int 1, .int 5⟩⟩
    c ∈ Comment.extract .both " // x" ∧ (∀ m ∈ [outer, inner], m.span.IsInteger) ∧
      GoesByContainment [outer, inner] c ∧ nearestOwner [outer, inner] c = some outer ∧
      inner.span.contains c.start = true ∧ inner.span.StrictlyIn outer.span := by
  intro far outer inner c
  exact ⟨by decide +kernel, by decide, by decide, by decide +kernel, by decide, by decide⟩

end Association
end Marginalia
