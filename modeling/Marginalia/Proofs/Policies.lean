import Marginalia.Proofs.Grouping
import Marginalia.Proofs.Nearest
import Marginalia.Proofs.Neighbours

/-!
# The two policies compared

The nearest policy claims the comments that are in a node or right above one.
That takes in all that the conservative policy gives to blocks, but not all that
it gives to declarations: a comment that trails a declaration, or stands between
a declaration and its block, is in neither, and is left unless another node is
near enough.
-/

namespace Marginalia
namespace Association

open Outline

variable {policy : Policy} {nodes : List NodeSpan} {f : Outline} {c : Comment}

theorem mem_unclaimed {cs : List Comment} :
    c ∈ (associate policy nodes cs).unclaimed ↔ c ∈ cs ∧ owner policy nodes c = none := by
  simp [associate_eq_parted, parted, ownedBy]

theorem nearestOwner_eq_none_iff :
    nearestOwner nodes c = none ↔
      ∀ n ∈ nodes, n.span.contains c.start = false ∧ isBelow c n = false := by
  simp only [nearestOwner, smallest, leftmost, Option.or_eq_none_iff, first_eq_none,
    List.filter_eq_nil_iff, Bool.not_eq_true]
  constructor
  · rintro ⟨-, hbelow, hcontains⟩ n hn
    exact ⟨hcontains n hn, hbelow n hn⟩
  · intro h
    refine ⟨?_, fun n hn => (h n hn).2, fun n hn => (h n hn).1⟩
    intro n hn
    by_contra hshares
    have hcontains := contains_of_sharesLine (Bool.eq_true_of_not_eq_false hshares)
    rw [(h n hn).1] at hcontains
    exact Bool.false_ne_true hcontains

/-- A comment is within reach of an outline: some node contains its start or begins on the line
after it. -/
def IsWithinReach (f : Outline) (c : Comment) : Prop :=
  ∃ p s, f.spanAt p = some s ∧ (s.contains c.start = true ∨ s.start.line = c.span.stop.line.addInt 1)

/-- The nearest policy leaves exactly the comments that are out of reach. -/
theorem owner_nearest_eq_none_iff :
    owner .nearest f.nodeSpans c = none ↔ ¬ IsWithinReach f c := by
  rw [owner, Option.map_eq_none_iff, nearestOwner_eq_none_iff]
  constructor
  · rintro h ⟨p, s, hs, hnear⟩
    obtain ⟨id, hid⟩ : ∃ id, p.identifier? = some id := by
      cases p with
      | item k => exact ⟨_, rfl⟩
      | body k => exact ⟨_, rfl⟩
      | file => cases hs
    have hn := h ⟨id, s⟩ (mem_nodeSpans.mpr ⟨p, hid, hs⟩)
    simp only [isBelow, decide_eq_false_iff_not] at hn
    rcases hnear with hcontains | hbelow
    · rw [hn.1] at hcontains
      exact Bool.false_ne_true hcontains
    · exact hn.2 hbelow
  · intro h n hn
    obtain ⟨p, -, hs⟩ := mem_nodeSpans.mp hn
    constructor
    · by_contra hcontains
      exact h ⟨p, n.span, hs, .inl (Bool.eq_true_of_not_eq_false hcontains)⟩
    · simp only [isBelow, decide_eq_false_iff_not]
      intro hbelow
      exact h ⟨p, n.span, hs, .inr hbelow⟩

/-- A comment that stands beside a declaration: behind it on its last line, or below that line and
above the first line of its block. -/
def StandsBeside (c : Comment) (declaration : Span) (block : Option Span) : Prop :=
  Trails c declaration ∨
    declaration.stop.line < c.start.line ∧ ∃ b ∈ block, c.start.line < b.start.line

theorem isOnDeclaration_iff {declaration : Span} {block : Option Span} :
    isOnDeclaration c declaration block = true ↔ StandsBeside c declaration block := by
  by_cases hline : declaration.stop.line = c.start.line
  · rw [isOnDeclaration_iff_trails hline, StandsBeside, hline]
    simp [Number.lt_irrefl]
  · have hnot : ¬ Trails c declaration := fun h => hline h.line
    rw [isOnDeclaration, if_neg (Ne.symm hline), StandsBeside]
    cases block with
    | none => simp [hnot]
    | some b => simp [hnot]

/-- The conservative policy leaves exactly the comments that are in no block and beside no
declaration. -/
theorem owner_conservative_eq_none_iff :
    owner .conservative f.nodeSpans c = none ↔
      (∀ i ∈ f.items, i.bodySpan?.any (isInsideBlock c) = false) ∧
        ∀ i ∈ f.items, ∀ d ∈ i.span?, ¬ StandsBeside c d i.bodySpan? := by
  have hbeside : ∀ i : Item, (∀ d ∈ i.span?, ¬ StandsBeside c d i.bodySpan?) ↔
      (i.span?.any fun d => isOnDeclaration c d i.bodySpan?) = false := by
    intro i
    cases i.span? <;> simp [← isOnDeclaration_iff]
  simp only [hbeside]
  rw [← List.findIdx?_eq_none_iff, ← List.findIdx?_eq_none_iff, owner_conservative,
    conservativeSlot]
  cases f.items.findIdx? fun i => i.bodySpan?.any (isInsideBlock c) with
  | some k => simp [Slot.identifier?]
  | none =>
    cases f.items.findIdx? fun i => i.span?.any fun d => isOnDeclaration c d i.bodySpan? with
    | some k => simp [Slot.identifier?]
    | none => simp [Slot.identifier?]

theorem contains_of_isInsideBlock {block : Span} (h : isInsideBlock c block = true) :
    block.contains c.start = true := by
  obtain ⟨hstart, hstop⟩ : block.start < c.start ∧ c.start < block.stop := by
    simpa [isInsideBlock] using h
  simp [Span.contains, Position.le_def, hstart, hstop]

theorem isWithinReach_of_isInsideBlock {i : Item} (hi : i ∈ f.items)
    (h : i.bodySpan?.any (isInsideBlock c) = true) : IsWithinReach f c := by
  obtain ⟨b, hb, hinside⟩ := (Option.any_eq_true _ _).mp h
  obtain ⟨k, hk⟩ := List.getElem?_of_mem hi
  refine ⟨.body k, b, ?_, .inl (contains_of_isInsideBlock hinside)⟩
  rw [spanAt, hk]
  exact hb

/-- Every comment that the nearest policy leaves is left by the conservative policy exactly if each
comment that stands beside a declaration is within reach of some node. -/
theorem unclaimed_nearest_subset_iff (f : Outline) (cs : List Comment) :
    (associate .nearest f.nodeSpans cs).unclaimed ⊆
        (associate .conservative f.nodeSpans cs).unclaimed ↔
      ∀ c ∈ cs, (∃ i ∈ f.items, ∃ d ∈ i.span?, StandsBeside c d i.bodySpan?) →
        IsWithinReach f c := by
  constructor
  · rintro h c hc ⟨i, hi, d, hd, hbeside⟩
    by_contra hreach
    have hleft := h (mem_unclaimed.mpr ⟨hc, owner_nearest_eq_none_iff.mpr hreach⟩)
    have hnone := owner_conservative_eq_none_iff.mp (mem_unclaimed.mp hleft).2
    exact hnone.2 i hi d hd hbeside
  · intro h c hleft
    obtain ⟨hc, hnone⟩ := mem_unclaimed.mp hleft
    have hreach := owner_nearest_eq_none_iff.mp hnone
    refine mem_unclaimed.mpr ⟨hc, owner_conservative_eq_none_iff.mpr ⟨?_, ?_⟩⟩
    · intro i hi
      by_contra hinside
      exact hreach (isWithinReach_of_isInsideBlock hi (Bool.eq_true_of_not_eq_false hinside))
    · intro i hi d hd hbeside
      exact hreach (h c hc ⟨i, hi, d, hd, hbeside⟩)

/-- A comment behind the only declaration is claimed by the conservative policy and left by the
nearest one. -/
theorem trailing_comment_out_of_reach :
    let f : Outline := ⟨[.constant "A" false
      (.bare (some ⟨.ofNat 1 6, .ofNat 1 7, .int 6, .int 7⟩))], none⟩
    let c : Comment := ⟨"a", .line, ⟨.ofNat 1 17, .ofNat 1 21, .int 17, .int 21⟩⟩
    let cs := Comment.extract .both "const A: u8 = 1; // a"
    c ∈ (associate .nearest f.nodeSpans cs).unclaimed ∧
      c ∉ (associate .conservative f.nodeSpans cs).unclaimed := by
  intro f c cs
  have hcs : cs = [c] := by decide +kernel
  rw [hcs]
  exact ⟨by decide +kernel, by decide +kernel⟩

end Association
end Marginalia
