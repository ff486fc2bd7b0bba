import Marginalia.Proofs.Lines
import Marginalia.Proofs.Opacity
import Mathlib.Computability.Language

/-!
# The language of complete literals

Quoted regions are found by a walk over the characters of a line that remembers the
open quote and whether a backslash awaits its character. What leaves no region open
is a regular language: units that are no quotes, and complete literals. Each state of
the walk has the language of what may follow until no region is open, and a step
takes the first unit from it.

The language is one of 16-bit units, in which columns count, so a cut may also
separate the two units of a character.
-/

open scoped Computability

namespace Marginalia
namespace Comment
namespace Quote

def unit (P : Nat → Prop) : Language Nat := {w | ∃ u, P u ∧ w = [u]}

def doubleMark : Nat := '"'.toNat

def singleMark : Nat := '\x27'.toNat

def backslash : Nat := '\\'.toNat

/-- What stands between quotes: a unit other than the quote and a backslash, or a backslash and any
unit after it. -/
def item (mark : Nat) : Language Nat :=
  unit (fun u => u ≠ backslash ∧ u ≠ mark) + unit (· = backslash) * unit fun _ => True

def literal (mark : Nat) : Language Nat := unit (· = mark) * (item mark)∗ * unit (· = mark)

/-- A unit that is no quote, or a literal. -/
def part : Language Nat :=
  unit (fun u => u ≠ doubleMark ∧ u ≠ singleMark) + literal doubleMark + literal singleMark

/-- The texts in which every literal is complete. -/
def complete : Language Nat := part∗

/-- What may follow in an open literal. -/
def rest (mark : Nat) : Language Nat := (item mark)∗ * (unit (· = mark) * complete)

theorem cons_mem_unit_mul {P : Nat → Prop} {l : Language Nat} {u : Nat} {w : List Nat} :
    u :: w ∈ unit P * l ↔ P u ∧ w ∈ l := by
  rw [Language.mem_mul]
  constructor
  · rintro ⟨_, ⟨v, hv, rfl⟩, b, hb, heq⟩
    obtain ⟨rfl, rfl⟩ := List.cons.inj heq
    exact ⟨hv, hb⟩
  · rintro ⟨hu, hw⟩
    exact ⟨[u], ⟨u, hu, rfl⟩, w, hw, rfl⟩

theorem nil_notMem_unit_mul (P : Nat → Prop) (l : Language Nat) : [] ∉ unit P * l := by
  rintro ⟨_, ⟨v, -, rfl⟩, b, -, heq⟩
  cases heq

theorem complete_eq : complete = 1 + (unit (fun u => u ≠ doubleMark ∧ u ≠ singleMark) * complete +
    unit (· = doubleMark) * rest doubleMark + unit (· = singleMark) * rest singleMark) := by
  have hunfold : complete = 1 + part * complete :=
    (Language.one_add_self_mul_kstar_eq_kstar part).symm
  conv_lhs => rw [hunfold]
  simp only [part, literal, rest, add_mul, mul_assoc]

theorem rest_eq (mark : Nat) : rest mark = unit (· = mark) * complete +
    (unit (fun u => u ≠ backslash ∧ u ≠ mark) * rest mark +
      unit (· = backslash) * (unit (fun _ => True) * rest mark)) := by
  have hunfold := Language.one_add_self_mul_kstar_eq_kstar (item mark)
  rw [rest]
  conv_lhs => rw [← hunfold]
  simp only [add_mul, one_mul, item, mul_assoc]

theorem cons_mem_complete {u : Nat} {w : List Nat} :
    u :: w ∈ complete ↔ (u ≠ doubleMark ∧ u ≠ singleMark) ∧ w ∈ complete ∨
      u = doubleMark ∧ w ∈ rest doubleMark ∨ u = singleMark ∧ w ∈ rest singleMark := by
  conv_lhs => rw [complete_eq]
  simp only [Language.mem_add, cons_mem_unit_mul, Language.mem_one, reduceCtorEq, false_or,
    or_assoc]

theorem cons_mem_rest {mark u : Nat} {w : List Nat} :
    u :: w ∈ rest mark ↔ u = mark ∧ w ∈ complete ∨ (u ≠ backslash ∧ u ≠ mark) ∧ w ∈ rest mark ∨
      u = backslash ∧ w ∈ unit (fun _ => True) * rest mark := by
  conv_lhs => rw [rest_eq]
  simp only [Language.mem_add, cons_mem_unit_mul]

theorem nil_notMem_rest (mark : Nat) : [] ∉ rest mark := by
  rw [rest_eq]
  simp only [Language.mem_add, nil_notMem_unit_mul, or_self, not_false_iff]

/-- The texts after which no region is open. -/
def residual (q : Quote) : Language Nat :=
  match q.opened with
  | none => complete
  | some mark => if q.escaped then unit (fun _ => True) * rest mark.toNat else rest mark.toNat

theorem nil_mem_residual (q : Quote) : [] ∈ q.residual ↔ q.isInside = false := by
  rcases q with ⟨_ | mark, escaped⟩
  · exact iff_of_true (Language.nil_mem_kstar part) rfl
  · refine iff_of_false ?_ (by simp [isInside])
    cases escaped
    · exact nil_notMem_rest mark.toNat
    · exact nil_notMem_unit_mul _ _

/-- The states of a walk: what is open is a quote, and only in a region something is escaped. -/
structure Sound (q : Quote) : Prop where
  isQuote : ∀ o, q.opened = some o → Quote.isQuote o = true
  escaped : q.opened = none → q.escaped = false

theorem sound_outside : outside.Sound := ⟨by simp [outside], fun _ => rfl⟩

theorem Sound.step {q : Quote} (h : q.Sound) (c : Char) : (q.step c).Sound := by
  refine ⟨fun o => isQuote_of_opened_step h.isQuote, fun hnone => ?_⟩
  rw [step_eq_outside (by simp [isInside, hnone])]
  rfl

theorem Sound.after {q : Quote} (h : q.Sound) (cs : List Char) : (q.after cs).Sound := by
  induction cs generalizing q with
  | nil => exact h
  | cons c cs ih => exact ih (h.step c)

theorem isQuote_iff (c : Char) :
    isQuote c = true ↔ c.toNat = doubleMark ∨ c.toNat = singleMark := by
  simp only [isQuote, Bool.or_eq_true, decide_eq_true_eq, doubleMark, singleMark, Char.toNat_inj]

theorem toNat_cons_mem_complete (c : Char) (w : List Nat) :
    c.toNat :: w ∈ complete ↔ w ∈ (outside.step c).residual := by
  rw [cons_mem_complete]
  by_cases hquote : isQuote c = true
  · have hstep : outside.step c = { opened := some c, escaped := false } := by
      simp [step, outside, hquote]
    have hne : doubleMark ≠ singleMark := by decide
    rw [hstep]
    rcases (isQuote_iff c).1 hquote with heq | heq <;> simp [residual, heq, hne, hne.symm]
  · have hstep : outside.step c = outside := by simp [step, outside, hquote]
    rw [isQuote_iff, not_or] at hquote
    rw [hstep]
    simp [residual, outside, hquote]

theorem toNat_cons_mem_rest {mark : Char} (hmark : isQuote mark = true) (c : Char)
    (w : List Nat) : c.toNat :: w ∈ rest mark.toNat ↔
      w ∈ (step { opened := some mark, escaped := false } c).residual := by
  have hne : mark ≠ '\\' := by
    rintro rfl
    exact absurd hmark (by decide)
  have hmarkUnit : c.toNat = mark.toNat ↔ c = mark := Char.toNat_inj
  have hslashUnit : c.toNat = backslash ↔ c = '\\' := Char.toNat_inj
  rw [cons_mem_rest, ne_eq, ne_eq, hmarkUnit, hslashUnit]
  by_cases hc : c = mark
  · simp [step, residual, outside, hc, hmark, hne]
  · by_cases hslash : c = '\\'
    · have hquote : isQuote '\\' = false := by decide
      simp [step, residual, hslash, hne.symm, hquote]
    · simp [step, residual, hc, hslash]

/-- A step takes the unit of its character from the texts that may follow. -/
theorem toNat_cons_mem_residual {q : Quote} (h : q.Sound) (c : Char) (w : List Nat) :
    c.toNat :: w ∈ q.residual ↔ w ∈ (q.step c).residual := by
  rcases q with ⟨_ | mark, escaped⟩
  · obtain rfl : escaped = false := h.escaped rfl
    exact toNat_cons_mem_complete c w
  · cases escaped
    · exact toNat_cons_mem_rest (h.isQuote mark rfl) c w
    · have hstep : step { opened := some mark, escaped := true } c =
          { opened := some mark, escaped := false } := by
        simp [step]
      rw [hstep]
      exact cons_mem_unit_mul.trans (and_iff_right trivial)

theorem surrogate_cons_mem_residual {q : Quote} (h : q.Sound) {u : Nat} (hu : 0xD800 ≤ u)
    (w : List Nat) : u :: w ∈ q.residual ↔ w ∈ residual { q with escaped := false } := by
  have hne : u ≠ doubleMark ∧ u ≠ singleMark ∧ u ≠ backslash := by
    have hvalues : doubleMark < 0xD800 ∧ singleMark < 0xD800 ∧ backslash < 0xD800 := by decide
    omega
  rcases q with ⟨_ | mark, escaped⟩
  · exact cons_mem_complete.trans (by simp [residual, hne])
  · have hmark : u ≠ mark.toNat := by
      rcases (isQuote_iff mark).1 (h.isQuote mark rfl) with heq | heq <;> rw [heq]
      · exact hne.1
      · exact hne.2.1
    cases escaped
    · exact cons_mem_rest.trans (by simp [residual, hmark, hne])
    · exact cons_mem_unit_mul.trans (and_iff_right trivial)

theorem unitsOf_append_mem_residual {q : Quote} (h : q.Sound) (c : Char) (w : List Nat) :
    Text.unitsOf c ++ w ∈ q.residual ↔ w ∈ (q.step c).residual := by
  unfold Text.unitsOf
  split
  · exact toNat_cons_mem_residual h c w
  · rename_i hlarge
    have hplain : isQuote c = false ∧ c ≠ '\\' := by
      have hvalues : doubleMark < 0x10000 ∧ singleMark < 0x10000 := by decide
      constructor
      · rw [Bool.eq_false_iff, ne_eq, isQuote_iff]
        omega
      · rintro rfl
        exact hlarge (by decide)
    have hsound : Sound { q with escaped := false } := ⟨h.isQuote, fun _ => rfl⟩
    rw [List.cons_append, List.cons_append, List.nil_append,
      surrogate_cons_mem_residual h (by omega), surrogate_cons_mem_residual hsound (by omega),
      step_of_plain hplain.1 hplain.2]

/-- A walk takes the units of its text from the texts that may follow. -/
theorem encode_append_mem_residual (cs : List Char) {q : Quote} (h : q.Sound) (w : List Nat) :
    Text.encode cs ++ w ∈ q.residual ↔ w ∈ (q.after cs).residual := by
  induction cs generalizing q with
  | nil => exact Iff.rfl
  | cons c cs ih =>
    have hsplit : Text.encode (c :: cs) ++ w = Text.unitsOf c ++ (Text.encode cs ++ w) := by
      simp [Text.encode]
    rw [hsplit, unitsOf_append_mem_residual h, ih (h.step c), after_cons]

end Quote

/-- A cut between two units is one between characters, or after the first unit of one. -/
theorem take_encode (n : Nat) (cs : List Char) :
    ∃ cut, (Text.encode cs).take n = Text.encode (Text.takeWidth n cs) ++ cut ∧
      (cut = [] ∨ ∃ u, 0xD800 ≤ u ∧ cut = [u]) := by
  induction cs generalizing n with
  | nil => exact ⟨[], by simp [Text.encode, Text.takeWidth], .inl rfl⟩
  | cons c cs ih =>
    have hsplit : Text.encode (c :: cs) = Text.unitsOf c ++ Text.encode cs := rfl
    rw [Text.takeWidth, hsplit]
    split
    · rename_i hle
      obtain ⟨cut, hcut, hcases⟩ := ih (n - Text.units c)
      refine ⟨cut, ?_, hcases⟩
      rw [List.take_append, Text.length_unitsOf, hcut,
        List.take_of_length_le (by rwa [Text.length_unitsOf])]
      simp [Text.encode]
    · -- The character does not fit, so the cut is before it or between its two units.
      rename_i hlt
      cases n with
      | zero => exact ⟨[], rfl, .inl rfl⟩
      | succ n =>
        unfold Text.units at hlt
        unfold Text.unitsOf
        split_ifs at hlt ⊢
        · omega
        · obtain rfl : n = 0 := by omega
          exact ⟨_, rfl, .inr ⟨_, Nat.le_add_right _ _, rfl⟩⟩

theorem take_encode_mem_complete_iff (n : Nat) (line : List Char) :
    (Text.encode line).take n ∈ Quote.complete ↔
      (Quote.outside.after (Text.takeWidth n line)).isInside = false := by
  have hsound := Quote.sound_outside.after (Text.takeWidth n line)
  obtain ⟨cut, hcut, hcases⟩ := take_encode n line
  rw [hcut]
  refine (Quote.encode_append_mem_residual _ Quote.sound_outside cut).trans ?_
  rcases hcases with rfl | ⟨u, hu, rfl⟩
  · exact Quote.nil_mem_residual _
  · exact (Quote.surrogate_cons_mem_residual hsound hu []).trans (Quote.nil_mem_residual _)

/-- A position is outside the quoted regions of a line exactly if the units before it are units
other than quotes and complete literals: for a position of the line or past its end, and for any
other number with the units whose indices are below it. -/
theorem isQuoted_eq_false_iff (line : List Char) :
    (∀ p : Nat, isQuoted line (.int p) = false ↔
      (Text.encode line).take (min p (Text.width line)) ∈ Quote.complete) ∧
    ∀ column : Number, isQuoted line column = false ↔
      (Text.encode line).take (column.countBelow (Text.width line)) ∈ Quote.complete := by
  have hcolumn : ∀ column : Number, isQuoted line column = false ↔
      (Text.encode line).take (column.countBelow (Text.width line)) ∈ Quote.complete :=
    fun column => (take_encode_mem_complete_iff _ line).symm
  refine ⟨fun p => ?_, hcolumn⟩
  rw [← Number.countBelow_natCast]
  exact hcolumn (.int p)

end Comment
end Marginalia
