import Marginalia.Proofs.Placement

/-!
# Comments between a declaration and its body

The heading of an item runs from the end of its declaration span to the start
of its body block. The conservative policy compares columns on the last line of
the declaration and only lines below it. So of the comments in a heading it
gives the declaration those on its last line and on the lines above the block,
but not one that stands before the block on the first line of the block.
-/

namespace Marginalia

theorem Number.lt_asymm {x y : Number} (h : x < y) : ¬ y < x :=
  fun k => lt_irrefl x (lt_trans h k)

theorem Position.line_lt_or_column_le {p q : Position} (h : p ≤ q) :
    p.line < q.line ∨ p.line = q.line ∧ p.column ≤ q.column := by
  rcases (le_def p q).mp h with (hline | ⟨hline, hcolumn⟩) | ⟨rfl, -⟩
  · exact .inl hline
  · exact .inr ⟨hline, Number.lt_asymm hcolumn⟩
  · exact .inr ⟨rfl, Number.lt_irrefl p.column⟩

namespace Association

open Outline

/-- A comment that starts where a declaration ends or later, and before its block. -/
structure InHeading (c : Comment) (declaration block : Span) : Prop where
  after : declaration.stop ≤ c.start
  before : c.start < block.start

instance (c : Comment) (declaration block : Span) : Decidable (InHeading c declaration block) :=
  decidable_of_iff (declaration.stop ≤ c.start ∧ c.start < block.start)
    ⟨fun h => ⟨h.1, h.2⟩, fun h => ⟨h.after, h.before⟩⟩

/-- In a heading, the test for a declaration is a test of the line alone. -/
theorem InHeading.isOnDeclaration_iff {c : Comment} {declaration block : Span}
    (h : InHeading c declaration block) :
    isOnDeclaration c declaration (some block) = true ↔
      c.start.line = declaration.stop.line ∨ c.start.line < block.start.line := by
  rw [isOnDeclaration]
  split_ifs with hline
  · -- On the last line of the declaration the column is past its end.
    rcases Position.line_lt_or_column_le h.after with hlt | ⟨-, hcolumn⟩
    · rw [hline] at hlt
      exact (Number.lt_irrefl _ hlt).elim
    · simp [hline, hcolumn]
  · rcases Position.line_lt_or_column_le h.after with hlt | ⟨heq, -⟩
    · simp [hline, hlt]
    · exact (hline heq.symm).elim

/-- An item owns exactly the comments that are in no block and on its declaration first. -/
theorem owner_eq_item_iff (f : Outline) (c : Comment) (n : Nat) :
    owner .conservative f.nodeSpans c = some (Identifier.item n) ↔
      (∀ i ∈ f.items, i.bodySpan?.any (isInsideBlock c) = false) ∧
        f.items.findIdx? (fun i => i.span?.any fun d => isOnDeclaration c d i.bodySpan?) =
          some n := by
  have hslot : owner .conservative f.nodeSpans c = some (Identifier.item n) ↔
      conservativeSlot f c = .item n := by
    rw [owner_conservative]
    constructor
    · intro h
      exact Slot.identifier?_injective (h.trans rfl)
    · intro h
      rw [h]
      rfl
  rw [hslot, conservativeSlot]
  cases hblock : f.items.findIdx? fun i => i.bodySpan?.any (isInsideBlock c) with
  | some k =>
    have hnot : ¬ ∀ i ∈ f.items, i.bodySpan?.any (isInsideBlock c) = false := by
      intro hall
      rw [List.findIdx?_eq_none_iff.mpr hall] at hblock
      cases hblock
    simp [hnot]
  | none =>
    rw [and_iff_right (List.findIdx?_eq_none_iff.mp hblock)]
    cases f.items.findIdx? fun i => i.span?.any fun d => isOnDeclaration c d i.bodySpan? with
    | some k => simp
    | none => simp

/-- A comment in the heading of an item, in no block and on no earlier declaration, belongs to the
item exactly if it is on the last line of the declaration or above the first line of the block. -/
theorem owner_inHeading_iff {f : Outline} {n : Nat} {i : Item} {declaration block : Span}
    {c : Comment} (hitem : f.items[n]? = some i) (hspan : i.span? = some declaration)
    (hbody : i.bodySpan? = some block) (hheading : InHeading c declaration block)
    (houtside : ∀ j ∈ f.items, j.bodySpan?.any (isInsideBlock c) = false)
    (hearlier : ∀ j ∈ f.items.take n,
      (j.span?.any fun d => isOnDeclaration c d j.bodySpan?) = false) :
    owner .conservative f.nodeSpans c = some (Identifier.item n) ↔
      c.start.line = declaration.stop.line ∨ c.start.line < block.start.line := by
  rw [owner_eq_item_iff, ← hheading.isOnDeclaration_iff]
  have hon : (i.span?.any fun d => isOnDeclaration c d i.bodySpan?) =
      isOnDeclaration c declaration (some block) := by
    rw [hspan, hbody]
    rfl
  obtain ⟨hlt, hget⟩ := List.getElem?_eq_some_iff.mp hitem
  rw [← hon, List.findIdx?_eq_some_iff_getElem]
  constructor
  · rintro ⟨-, hn, hfound, -⟩
    rwa [hget] at hfound
  · intro h
    refine ⟨houtside, hlt, by rwa [hget], ?_⟩
    intro k hk
    have hmem : f.items[k] ∈ f.items.take n :=
      List.mem_take_iff_getElem.mpr ⟨k, by omega, rfl⟩
    simp [hearlier _ hmem]

/-- A comment on the line between a declaration and its block. -/
theorem owner_inHeading_iff_line_between :
    let i : Item := .fn "f" false false [] (.bare (some ⟨.ofNat 1 3, .ofNat 1 4, .int 3, .int 4⟩))
      (.bare (some ⟨.ofNat 3 0, .ofNat 4 1, .int 12, .int 15⟩))
    let c : Comment := ⟨"x", .line, ⟨.ofNat 2 0, .ofNat 2 4, .int 7, .int 11⟩⟩
    c ∈ Comment.extract .both "fn f()\n// x\n\x7b\n\x7d" ∧
      owner .conservative (Outline.mk [.union "u" none, i] none).nodeSpans c =
        some (Identifier.item 1) := by
  intro i c
  refine ⟨by decide +kernel, ?_⟩
  exact (owner_inHeading_iff (f := ⟨[.union "u" none, i], none⟩) rfl rfl rfl (by decide) (by decide)
    (by decide)).mpr (.inr (by decide))

/-- A comment that stands before the opening brace, on the line of the brace, has no owner, although
all spans are well formed and it is in the heading of the only item. -/
theorem comment_before_brace_unowned :
    let declaration : Span := ⟨.ofNat 1 3, .ofNat 1 4, .int 3, .int 4⟩
    let block : Span := ⟨.ofNat 2 8, .ofNat 3 1, .int 15, .int 18⟩
    let f : Outline := ⟨[.fn "f" false false [] (.bare (some declaration)) (.bare (some block))],
      none⟩
    let c : Comment := ⟨"x", .block, ⟨.ofNat 2 0, .ofNat 2 7, .int 7, .int 14⟩⟩
    c ∈ Comment.extract .both "fn f()\n/* x */ \x7b\n\x7d" ∧
      declaration.WellFormed ∧ block.WellFormed ∧ InHeading c declaration block ∧
      (∀ j ∈ f.items, j.bodySpan?.any (isInsideBlock c) = false) ∧
      owner .conservative f.nodeSpans c = none := by
  intro declaration block f c
  exact ⟨by decide +kernel, by decide, by decide, by decide, by decide, by decide⟩

end Association
end Marginalia
