import Marginalia.Proofs.Heading

/-!
# Declarations on one line

A comment trails every declaration that ends before it on its line. The
conservative policy takes the first of them in the order of the items. So no
earlier item is trailed by a comment that it gives to an item, but a later one
may be, and that one is as a rule nearer: where the items are in order, the
comment goes to the nearest declaration only if it trails no other.
-/

namespace Marginalia
namespace Association

open Outline

/-- A declaration that ends on the line of a comment, not past the start of the comment. -/
structure Trails (c : Comment) (declaration : Span) : Prop where
  line : declaration.stop.line = c.start.line
  column : declaration.stop.column ≤ c.start.column

instance (c : Comment) (declaration : Span) : Decidable (Trails c declaration) :=
  decidable_of_iff
    (declaration.stop.line = c.start.line ∧ declaration.stop.column ≤ c.start.column)
    ⟨fun h => ⟨h.1, h.2⟩, fun h => ⟨h.line, h.column⟩⟩

/-- A declaration that a comment trails, with its end further right than that of another. -/
structure IsNearer (c : Comment) (other declaration : Span) : Prop extends
    Trails c declaration where
  right : other.stop.column < declaration.stop.column

instance (c : Comment) (other declaration : Span) : Decidable (IsNearer c other declaration) :=
  decidable_of_iff
    (Trails c declaration ∧ other.stop.column < declaration.stop.column)
    ⟨fun h => ⟨h.1, h.2⟩, fun h => ⟨h.toTrails, h.right⟩⟩

variable {f : Outline} {c : Comment} {n : Nat} {d : Span}

theorem isOnDeclaration_iff_trails (hline : d.stop.line = c.start.line) (block : Option Span) :
    isOnDeclaration c d block = true ↔ Trails c d := by
  rw [isOnDeclaration, if_pos hline.symm, decide_eq_true_iff]
  constructor
  · intro hcolumn
    exact ⟨hline, hcolumn⟩
  · intro h
    exact h.column

theorem not_isNearer_self (c : Comment) (d : Span) : ¬ IsNearer c d d := by
  intro h
  exact Number.lt_irrefl _ h.right

theorem trails_of_owner (howner : owner .conservative f.nodeSpans c = some (Identifier.item n))
    (hspan : f.spanAt (.item n) = some d) (hline : d.stop.line = c.start.line) : Trails c d := by
  obtain ⟨i, hi, hd⟩ := Option.bind_eq_some_iff.mp hspan
  obtain ⟨-, hfirst⟩ := (owner_eq_item_iff f c n).mp howner
  obtain ⟨hn, hon, -⟩ := List.findIdx?_eq_some_iff_getElem.mp hfirst
  have hget : f.items[n] = i := (List.getElem?_eq_some_iff.mp hi).2
  rw [hget, hd] at hon
  exact (isOnDeclaration_iff_trails hline i.bodySpan?).mp hon

/-- Before the item that owns a comment there is none whose declaration the comment trails. -/
theorem not_trails_of_lt (howner : owner .conservative f.nodeSpans c = some (Identifier.item n))
    {m : Nat} {e : Span} (hm : m < n) (he : f.spanAt (.item m) = some e) : ¬ Trails c e := by
  intro htrails
  obtain ⟨j, hj, hspan⟩ := Option.bind_eq_some_iff.mp he
  obtain ⟨-, hfirst⟩ := (owner_eq_item_iff f c n).mp howner
  obtain ⟨hn, -, hbefore⟩ := List.findIdx?_eq_some_iff_getElem.mp hfirst
  have hget : f.items[m] = j := (List.getElem?_eq_some_iff.mp hj).2
  apply hbefore m hm
  rw [hget, hspan]
  exact (isOnDeclaration_iff_trails htrails.line j.bodySpan?).mpr htrails

/-- A comment that goes to a declaration which ends on its line trails this one and that of no
earlier item. So no declaration is nearer exactly if that of no later item is. -/
theorem owner_nearest_iff
    (howner : owner .conservative f.nodeSpans c = some (Identifier.item n))
    (hspan : f.spanAt (.item n) = some d) (hline : d.stop.line = c.start.line) :
    Trails c d ∧
      (∀ m e, m < n → f.spanAt (.item m) = some e → ¬ Trails c e) ∧
      ((∀ m e, f.spanAt (.item m) = some e → ¬ IsNearer c d e) ↔
        ∀ m e, n < m → f.spanAt (.item m) = some e → ¬ IsNearer c d e) := by
  refine ⟨trails_of_owner howner hspan hline, ?_, ?_⟩
  · intro m e hm he
    exact not_trails_of_lt howner hm he
  · constructor
    · intro h m e _ he
      exact h m e he
    · intro h m e he
      rcases Nat.lt_trichotomy m n with hlt | rfl | hgt
      · intro hnearer
        exact not_trails_of_lt howner hlt he hnearer.toTrails
      · obtain rfl : d = e := Option.some.inj (hspan.symm.trans he)
        exact not_isNearer_self c d
      · exact h m e hgt he

/-- A comment between two declarations on one line goes to the first, which is the nearest. -/
theorem owner_nearest_iff_between :
    let a : Span := ⟨.ofNat 1 6, .ofNat 1 7, .int 6, .int 7⟩
    let b : Span := ⟨.ofNat 1 31, .ofNat 1 32, .int 31, .int 32⟩
    let f : Outline :=
      ⟨[.constant "A" false (.bare (some a)), .constant "B" false (.bare (some b))], none⟩
    let c : Comment := ⟨"a", .block, ⟨.ofNat 1 17, .ofNat 1 24, .int 17, .int 24⟩⟩
    c ∈ Comment.extract .both "const A: u8 = 1; /* a */ const B: u8 = 2;" ∧
      owner .conservative f.nodeSpans c = some (Identifier.item 0) ∧
      ∀ m e, f.spanAt (.item m) = some e → ¬ IsNearer c a e := by
  intro a b f c
  have howner : owner .conservative f.nodeSpans c = some (Identifier.item 0) := by decide
  refine ⟨by decide +kernel, howner, ?_⟩
  apply (owner_nearest_iff howner (d := a) rfl rfl).2.2.mpr
  intro m e hm he
  match m with
  | 1 =>
    obtain rfl : b = e := Option.some.inj he
    decide
  | _ + 2 => cases he

/-- A comment behind two declarations on one line goes to the first, but the second is nearer. -/
theorem trailing_comment_skips_nearer :
    let a : Span := ⟨.ofNat 1 6, .ofNat 1 7, .int 6, .int 7⟩
    let b : Span := ⟨.ofNat 1 23, .ofNat 1 24, .int 23, .int 24⟩
    let f : Outline :=
      ⟨[.constant "A" false (.bare (some a)), .constant "B" false (.bare (some b))], none⟩
    let c : Comment := ⟨"b", .line, ⟨.ofNat 1 34, .ofNat 1 38, .int 34, .int 38⟩⟩
    c ∈ Comment.extract .both "const A: u8 = 1; const B: u8 = 2; // b" ∧
      owner .conservative f.nodeSpans c = some (Identifier.item 0) ∧
      f.spanAt (.item 0) = some a ∧ a.stop.line = c.start.line ∧
      f.spanAt (.item 1) = some b ∧ IsNearer c a b := by
  intro a b f c
  exact ⟨by decide +kernel, by decide, rfl, rfl, rfl, by decide⟩

/-- The declarations of an outline end in the order of the items. -/
def EndInOrder (f : Outline) : Prop :=
  ∀ m k d e, m < k → f.spanAt (.item m) = some d → f.spanAt (.item k) = some e → d.stop < e.stop

/-- Where the declarations end in order, every further one that a comment trails is nearer. -/
theorem owner_nearest_iff_sole (horder : EndInOrder f)
    (howner : owner .conservative f.nodeSpans c = some (Identifier.item n))
    (hspan : f.spanAt (.item n) = some d) (hline : d.stop.line = c.start.line) :
    (∀ m e, f.spanAt (.item m) = some e → ¬ IsNearer c d e) ↔
      ∀ m e, m ≠ n → f.spanAt (.item m) = some e → ¬ Trails c e := by
  constructor
  · intro h m e hne he htrails
    have hgt : n < m := by
      by_contra hle
      exact not_trails_of_lt howner (by omega) he htrails
    rcases horder n m d e hgt hspan he with hlt | ⟨-, hright⟩
    · rw [hline, htrails.line] at hlt
      exact Number.lt_irrefl _ hlt
    · exact h m e he ⟨htrails, hright⟩
  · intro h m e he hnearer
    by_cases hm : m = n
    · subst hm
      obtain rfl : d = e := Option.some.inj (hspan.symm.trans he)
      exact not_isNearer_self c d hnearer
    · exact h m e hm he hnearer.toTrails

end Association
end Marginalia
