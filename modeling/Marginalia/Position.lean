import Marginalia.Number.Order
import Marginalia.Number.Shortest

/-!
# Positions and spans

Lines count from one and columns from zero; the end of a span is exclusive in
its column. Coordinates are numbers of the data format, because spans also
arrive from outside and need not be well formed: what a grammar or a source
gives are integers. Offsets count from the beginning of the source and are zero
where nothing supplies them.
-/

namespace Marginalia

/-- A place in a source: a line and a column of it. -/
structure Position where
  line : Number
  column : Number
deriving DecidableEq, Repr, Inhabited

namespace Position

def ofNat (line column : Nat) : Position := { line := .int line, column := .int column }

/-- Positions in reading order, by line and then by column. -/
instance : LT Position where
  lt a b := a.line < b.line ∨ a.line = b.line ∧ a.column < b.column

/-- A position is reached from another that is before it, and from itself unless its column is
infinite. -/
instance : LE Position where
  le a b := a < b ∨ a = b ∧ a.column.isFinite

theorem lt_def (a b : Position) :
    a < b ↔ a.line < b.line ∨ a.line = b.line ∧ a.column < b.column := Iff.rfl

theorem le_def (a b : Position) : a ≤ b ↔ a < b ∨ a = b ∧ a.column.isFinite := Iff.rfl

instance (a b : Position) : Decidable (a < b) :=
  inferInstanceAs (Decidable (_ ∨ _))

instance (a b : Position) : Decidable (a ≤ b) :=
  inferInstanceAs (Decidable (_ ∨ _))

theorem lt_irrefl (a : Position) : ¬ a < a := by
  simp [lt_def, Number.lt_irrefl]

theorem lt_trans {a b c : Position} (h : a < b) (k : b < c) : a < c := by
  rcases h with h | ⟨h, h'⟩ <;> rcases k with k | ⟨k, k'⟩
  · exact .inl (Number.lt_trans h k)
  · exact .inl (k ▸ h)
  · exact .inl (h ▸ k)
  · exact .inr ⟨h.trans k, Number.lt_trans h' k'⟩

theorem lt_trichotomy (a b : Position) : a < b ∨ a = b ∨ b < a := by
  rcases Number.lt_trichotomy a.line b.line with h | h | h
  · exact .inl (.inl h)
  · rcases Number.lt_trichotomy a.column b.column with k | k | k
    · exact .inl (.inr ⟨h, k⟩)
    · exact .inr (.inl (by cases a; cases b; simp_all))
    · exact .inr (.inr (.inr ⟨h.symm, k⟩))
  · exact .inr (.inr (.inl h))

@[simp] theorem ofNat_lt_ofNat (l c l' c' : Nat) :
    ofNat l c < ofNat l' c' ↔ l < l' ∨ l = l' ∧ c < c' := by
  simp only [lt_def, ofNat, Number.int_lt_int, Number.int.injEq]
  omega

@[simp] theorem ofNat_le_ofNat (l c l' c' : Nat) :
    ofNat l c ≤ ofNat l' c' ↔ l < l' ∨ l = l' ∧ c ≤ c' := by
  rw [le_def, ofNat_lt_ofNat]
  simp only [ofNat, mk.injEq, Number.int.injEq, Number.isFinite, and_true]
  omega

/-- How far a position is past another: in lines if these differ, else in columns. -/
def difference (a b : Position) : Option Number :=
  if a.line ≠ b.line then a.line.sub? b.line else a.column.sub? b.column

end Position

/-- A stretch of a source from one position to another, with the offsets of the two. -/
structure Span where
  start : Position
  stop : Position
  startOffset : Number
  endOffset : Number
deriving DecidableEq, Repr, Inhabited

namespace Span

/-- The empty span at a position. -/
def point (position : Position) (offset : Number) : Span :=
  { start := position, stop := position, startOffset := offset, endOffset := offset }

variable (s : Span)

/-- How far a span is past another: by the starts, and by the ends if the starts coincide or have
no distance. -/
def difference (t : Span) : Option Number :=
  match s.start.difference t.start with
  | none | some (.int 0) => s.stop.difference t.stop
  | some n => some n

/-- A span whose coordinates are in range and whose end does not precede its start. -/
def WellFormed : Prop :=
  .int 1 ≤ s.start.line ∧ .int 1 ≤ s.stop.line ∧ .int 0 ≤ s.start.column ∧
    .int 0 ≤ s.stop.column ∧ s.start ≤ s.stop

instance : Decidable s.WellFormed :=
  inferInstanceAs (Decidable (_ ∧ _))

/-- Whether a span starts where it ends. -/
def isPoint : Bool := decide (s.start = s.stop)

/-- Whether a position lies in a span, its two ends included. -/
def contains (p : Position) : Bool :=
  decide (s.start ≤ p) && decide (p ≤ s.stop)

/-- Number of lines after the first. -/
def lineCount : Option Number := s.stop.line.sub? s.start.line

/-- Distance of the two columns, whatever the lines. -/
def columnWidth : Option Number := s.stop.column.sub? s.start.column

/-- A span in the form `line:column-line:column`. -/
def text : String :=
  s.start.line.toText ++ ":" ++ s.start.column.toText ++ "-" ++
    s.stop.line.toText ++ ":" ++ s.stop.column.toText

end Span
end Marginalia
