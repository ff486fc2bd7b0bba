import Marginalia.Proofs.Annotation

/-!
# Placement under the nearest policy

The matcher keeps a best candidate and replaces it by a strictly better one. So
it ends with the first of the least candidates: none is better, and it is better
than every candidate in front of it. Spans are ranked by their line counts and
then by their column widths; between two infinite columns there is no width, and
a span without one is never the better or the worse of two with equal line counts.
-/

namespace Marginalia

namespace Outline

/-- The slots of the item at an index whose span is known. -/
def Item.spannedSlots (index : Nat) (i : Item) : List (Slot × Span) :=
  (i.span?.map fun s => (Slot.item index, s)).toList ++
    (i.bodySpan?.map fun s => (Slot.body index, s)).toList

/-- The slots whose span is known, item by item, a declaration before its own block. -/
def spannedSlots (f : Outline) : List (Slot × Span) :=
  f.items.zipIdx.flatMap fun p => p.1.spannedSlots p.2

def Slot.node (q : Slot × Span) : NodeSpan := ⟨q.1.identifier?.getD "", q.2⟩

theorem nodeSpans_eq_map (f : Outline) : f.nodeSpans = f.spannedSlots.map Slot.node := by
  rw [nodeSpans, nodeSpansFrom_eq_flatMap, spannedSlots, List.map_flatMap]
  congr 1
  funext p
  rw [Item.nodeSpans, Item.spannedSlots]
  cases p.1.span? <;> cases p.1.bodySpan? <;> rfl

theorem identifier?_of_mem_spannedSlots {f : Outline} {q : Slot × Span} (h : q ∈ f.spannedSlots) :
    q.1.identifier? = some (Slot.node q).identifier := by
  obtain ⟨p, -, hq⟩ := List.mem_flatMap.mp h
  simp only [Item.spannedSlots, List.mem_append, Option.mem_toList, Option.map_eq_some_iff] at hq
  rcases hq with ⟨s, -, rfl⟩ | ⟨s, -, rfl⟩ <;> rfl

end Outline

namespace Association

open Outline

/-- The first of the least elements of a list: none is before it, and it is before all those in
front of it that have a measure. -/
structure FirstLeast {α : Type} (before : α → α → Bool) (measured : α → Prop) (xs : List α)
    (a : α) : Prop where
  least : ∀ b ∈ xs, before b a = false
  first : ∃ front back, xs = front ++ a :: back ∧ ∀ b ∈ front, measured b → before a b = true

/-- A strict order in which an element with a measure is before or after one of any two elements
that are in order. -/
structure Ranks {α : Type} (before : α → α → Bool) (measured : α → Prop) : Prop where
  irrefl : ∀ a, before a a = false
  trans : ∀ {a b c}, before a b = true → before b c = true → before a c = true
  separates : ∀ {a b c}, before a b = true → before c b = false → measured c → before a c = true

section FirstLeast

variable {α β : Type} {before : α → α → Bool} {measured : α → Prop}

theorem FirstLeast.mem {xs : List α} {a : α} (h : FirstLeast before measured xs a) : a ∈ xs := by
  obtain ⟨front, back, rfl, -⟩ := h.first
  simp

theorem FirstLeast.of_map {g : β → α} {xs : List β} {a : α}
    (h : FirstLeast before measured (xs.map g) a) :
    ∃ b, g b = a ∧ FirstLeast (fun x y => before (g x) (g y)) (fun x => measured (g x)) xs b := by
  obtain ⟨front, back, hxs, hfront⟩ := h.first
  obtain ⟨xs₁, xs₂, rfl, rfl, htail⟩ := List.map_eq_append_iff.mp hxs
  obtain ⟨b, xs₃, rfl, rfl, -⟩ := List.map_eq_cons_iff.mp htail
  refine ⟨b, rfl, ⟨?_, xs₁, xs₃, rfl, ?_⟩⟩
  · intro x hx
    exact h.least (g x) (List.mem_map_of_mem hx)
  · intro x hx
    exact hfront (g x) (List.mem_map_of_mem hx)

theorem FirstLeast.unique {xs : List α} {a b : α} (hm : ∀ x ∈ xs, measured x)
    (ha : FirstLeast before measured xs a) (hb : FirstLeast before measured xs b) : a = b := by
  obtain ⟨front, back, hxs, hfront⟩ := ha.first
  obtain ⟨front', back', hxs', hfront'⟩ := hb.first
  have hsplit := List.append_eq_append_iff.mp (hxs.symm.trans hxs')
  rcases hsplit with ⟨between, hf, ht⟩ | ⟨between, hf, ht⟩
  · cases between with
    | nil => exact (List.cons.inj ht).1
    | cons x between =>
      obtain rfl : a = x := (List.cons.inj ht).1
      have hba := hfront' a (by simp [hf]) (hm a ha.mem)
      rw [ha.least b hb.mem] at hba
      exact (Bool.false_ne_true hba).elim
  · cases between with
    | nil => exact (List.cons.inj ht).1.symm
    | cons x between =>
      obtain rfl : b = x := (List.cons.inj ht).1
      have hab := hfront b (by simp [hf]) (hm b hb.mem)
      rw [hb.least a ha.mem] at hab
      exact (Bool.false_ne_true hab).elim

/-- A further element takes the place of the best one if it is before that. -/
theorem FirstLeast.step (hr : Ranks before measured) {seen : List α} {best : α}
    (h : FirstLeast before measured seen best) (x : α) :
    FirstLeast before measured (seen ++ [x]) (if before x best then x else best) := by
  by_cases hx : before x best = true
  · rw [if_pos hx]
    refine ⟨?_, seen, [], rfl, fun b hb => hr.separates hx (h.least b hb)⟩
    intro b hb
    rcases List.mem_append.mp hb with hb | hb
    · by_contra hbx
      have hbest := hr.trans (Bool.not_eq_false _ ▸ hbx) hx
      rw [h.least b hb] at hbest
      exact Bool.false_ne_true hbest
    · rw [List.mem_singleton.mp hb]
      exact hr.irrefl x
  · rw [if_neg hx]
    obtain ⟨front, back, rfl, hfront⟩ := h.first
    refine ⟨?_, front, back ++ [x], by simp, hfront⟩
    intro b hb
    rcases List.mem_append.mp hb with hb | hb
    · exact h.least b hb
    · rw [List.mem_singleton.mp hb]
      exact Bool.eq_false_iff.mpr hx

theorem FirstLeast.foldl (hr : Ranks before measured) {seen : List α} {best : α}
    (h : FirstLeast before measured seen best) (xs : List α) :
    FirstLeast before measured (seen ++ xs)
      (xs.foldl (fun best x => if before x best then x else best) best) := by
  induction xs generalizing seen best with
  | nil => simpa using h
  | cons x xs ih =>
    have hstep := ih (h.step hr x)
    rwa [List.append_assoc, List.singleton_append] at hstep

end FirstLeast

theorem first_eq_none {before : NodeSpan → NodeSpan → Bool} {ns : List NodeSpan} :
    first before ns = none ↔ ns = [] := by
  cases ns <;> simp [first]

theorem firstLeast_of_first {before : NodeSpan → NodeSpan → Bool} {measured : NodeSpan → Prop}
    (hr : Ranks before measured) {ns : List NodeSpan} {n : NodeSpan}
    (h : first before ns = some n) : FirstLeast before measured ns n := by
  cases ns with
  | nil => simp [first] at h
  | cons m ns =>
    have hm : FirstLeast before measured [m] m :=
      ⟨by simp [hr.irrefl], [], [], rfl, by simp⟩
    rw [← Option.some.inj h]
    exact hm.foldl hr ns

/-- One of two optional numbers is less than the other; both are present. -/
def Less (x y : Option Number) : Prop := ∃ v w, x = some v ∧ y = some w ∧ v < w

theorem less_irrefl (x : Option Number) : ¬ Less x x := by
  rintro ⟨v, w, hv, hw, h⟩
  obtain rfl := Option.some.inj (hv.symm.trans hw)
  exact Number.lt_irrefl v h

theorem Less.trans {x y z : Option Number} (h : Less x y) (k : Less y z) : Less x z := by
  obtain ⟨u, v, rfl, rfl, huv⟩ := h
  obtain ⟨v', w, hv, rfl, hvw⟩ := k
  obtain rfl := Option.some.inj hv
  exact ⟨u, w, rfl, rfl, Number.lt_trans huv hvw⟩

theorem less_trichotomy {x y : Option Number} (hx : x.isSome) (hy : y.isSome) :
    Less x y ∨ x = y ∨ Less y x := by
  obtain ⟨v, rfl⟩ := Option.isSome_iff_exists.mp hx
  obtain ⟨w, rfl⟩ := Option.isSome_iff_exists.mp hy
  rcases Number.lt_trichotomy v w with h | rfl | h
  · exact .inl ⟨v, w, rfl, rfl, h⟩
  · exact .inr (.inl rfl)
  · exact .inr (.inr ⟨w, v, rfl, rfl, h⟩)

theorem Less.separates {x y z : Option Number} (h : Less x y) (k : ¬ Less z y) (hz : z.isSome) :
    Less x z := by
  have hy : y.isSome := by
    obtain ⟨-, w, -, rfl, -⟩ := h
    rfl
  rcases less_trichotomy hz hy with hzy | rfl | hyz
  · exact (k hzy).elim
  · exact h
  · exact h.trans hyz

def Measured (s : Span) : Prop := s.lineCount.isSome ∧ s.columnWidth.isSome

instance (s : Span) : Decidable (Measured s) := inferInstanceAs (Decidable (_ ∧ _))

theorem narrower_iff {a b : Span} : narrower a b = true ↔ Less a.columnWidth b.columnWidth := by
  unfold narrower Less
  cases a.columnWidth <;> cases b.columnWidth <;> simp

theorem smaller_iff {a b : Span} :
    smaller a b = true ↔ Less a.lineCount b.lineCount ∨
      a.lineCount = b.lineCount ∧ b.lineCount.isSome ∧ Less a.columnWidth b.columnWidth := by
  rw [← narrower_iff]
  unfold smaller Less
  cases a.lineCount <;> cases b.lineCount <;> simp

theorem smaller_trans {a b c : Span} (hab : smaller a b = true) (hbc : smaller b c = true) :
    smaller a c = true := by
  rw [smaller_iff] at hab hbc ⊢
  rcases hab with hab | ⟨hl, -, hab⟩ <;> rcases hbc with hbc | ⟨hl', hs, hbc⟩
  · exact .inl (hab.trans hbc)
  · exact .inl (hl' ▸ hab)
  · exact .inl (hl ▸ hbc)
  · exact .inr ⟨hl.trans hl', hs, hab.trans hbc⟩

theorem smaller_separates {a b c : Span} (hab : smaller a b = true) (hcb : smaller c b = false)
    (hc : Measured c) : smaller a c = true := by
  rw [← Bool.not_eq_true, smaller_iff, not_or] at hcb
  obtain ⟨hlines, hwidths⟩ := hcb
  rw [smaller_iff] at hab ⊢
  rcases hab with hab | ⟨hl, hs, hab⟩
  · exact .inl (hab.separates hlines hc.1)
  · rcases less_trichotomy hc.1 hs with h | h | h
    · exact (hlines h).elim
    · exact .inr ⟨hl.trans h.symm, hc.1, hab.separates (fun k => hwidths ⟨h, hs, k⟩) hc.2⟩
    · exact .inl (hl ▸ h)

theorem ranks_smaller : Ranks smaller Measured where
  irrefl a := by
    rw [← Bool.not_eq_true, smaller_iff]
    rintro (h | ⟨-, -, h⟩)
    · exact less_irrefl _ h
    · exact less_irrefl _ h
  trans := smaller_trans
  separates := smaller_separates

def leftOf (a b : Span) : Bool := decide (a.start.column < b.start.column)

theorem ranks_leftOf : Ranks leftOf fun _ => True where
  irrefl a := decide_eq_false (Number.lt_irrefl _)
  trans {a b c} hab hbc := decide_eq_true
    (Number.lt_trans (of_decide_eq_true hab) (of_decide_eq_true hbc))
  separates {a b c} hab hcb _ := by
    have hab : a.start.column < b.start.column := of_decide_eq_true hab
    have hcb : ¬ c.start.column < b.start.column := of_decide_eq_false hcb
    refine decide_eq_true ?_
    rcases Number.lt_trichotomy c.start.column b.start.column with h | h | h
    · exact (hcb h).elim
    · exact h ▸ hab
    · exact Number.lt_trans hab h

theorem Ranks.comap {α β : Type} {before : α → α → Bool} {measured : α → Prop}
    (h : Ranks before measured) (g : β → α) :
    Ranks (fun a b => before (g a) (g b)) fun a => measured (g a) where
  irrefl a := h.irrefl (g a)
  trans := h.trans
  separates := h.separates

def candidates (f : Outline) (test : Span → Bool) : List (Slot × Span) :=
  f.spannedSlots.filter fun q => test q.2

def IsFirstLeast (before : Span → Span → Bool) (measured : Span → Prop) (f : Outline)
    (test : Span → Bool) (p : Slot) : Prop :=
  ∃ s, FirstLeast (fun a b => before a.2 b.2) (fun a => measured a.2) (candidates f test) (p, s)

section Candidates

variable {f : Outline} {test : Span → Bool} {before : Span → Span → Bool} {measured : Span → Prop}

theorem filter_nodeSpans :
    (f.nodeSpans.filter fun n => test n.span) = (candidates f test).map Slot.node := by
  rw [nodeSpans_eq_map, List.filter_map]
  rfl

theorem candidates_eq_nil_of_first (before : Span → Span → Bool) (test : Span → Bool)
    (h : first (fun a b => before a.span b.span) (f.nodeSpans.filter fun n => test n.span) = none) :
    candidates f test = [] := by
  rw [first_eq_none, filter_nodeSpans] at h
  exact List.map_eq_nil_iff.mp h

theorem exists_isFirstLeast_of_first (hr : Ranks before measured) (test : Span → Bool)
    {n : NodeSpan}
    (h : first (fun a b => before a.span b.span) (f.nodeSpans.filter fun n => test n.span) =
      some n) :
    ∃ p : Slot, p.identifier? = some n.identifier ∧ IsFirstLeast before measured f test p := by
  have hleast := firstLeast_of_first (hr.comap NodeSpan.span) h
  rw [filter_nodeSpans] at hleast
  obtain ⟨q, rfl, hq⟩ := hleast.of_map
  exact ⟨q.1, identifier?_of_mem_spannedSlots (List.mem_of_mem_filter hq.mem), q.2, hq⟩

theorem IsFirstLeast.ne_nil {p : Slot} (h : IsFirstLeast before measured f test p) :
    candidates f test ≠ [] := by
  obtain ⟨s, hs⟩ := h
  exact List.ne_nil_of_mem hs.mem

theorem IsFirstLeast.unique {p q : Slot} (hm : ∀ x ∈ f.spannedSlots, measured x.2)
    (hp : IsFirstLeast before measured f test p) (hq : IsFirstLeast before measured f test q) :
    p = q := by
  obtain ⟨s, hs⟩ := hp
  obtain ⟨t, ht⟩ := hq
  exact congrArg Prod.fst (hs.unique (fun x hx => hm x (List.mem_of_mem_filter hx)) ht)

end Candidates

/-- A span that contains the start of a comment and begins or ends on its line. -/
def touches (c : Comment) (s : Span) : Bool :=
  s.contains c.start &&
    (decide (s.start.line = c.start.line) || decide (s.stop.line = c.start.line))

/-- A span that begins on the line after a comment. -/
def follows (c : Comment) (s : Span) : Bool :=
  decide (s.start.line = c.span.stop.line.addInt 1)

/-- A span that contains the start of a comment. -/
def surrounds (c : Comment) (s : Span) : Bool := s.contains c.start

/-- Where a comment belongs under the nearest policy. -/
inductive NearestSlot (f : Outline) (c : Comment) : Slot → Prop
  | touching {p : Slot} (h : IsFirstLeast smaller Measured f (touches c) p) : NearestSlot f c p
  | following {p : Slot} (hnone : candidates f (touches c) = [])
      (h : IsFirstLeast leftOf (fun _ => True) f (follows c) p) : NearestSlot f c p
  | surrounding {p : Slot} (hnone : candidates f (touches c) = [])
      (hnone' : candidates f (follows c) = [])
      (h : IsFirstLeast smaller Measured f (surrounds c) p) : NearestSlot f c p
  | file (hnone : candidates f (touches c) = []) (hnone' : candidates f (follows c) = [])
      (hnone'' : candidates f (surrounds c) = []) : NearestSlot f c .file

theorem NearestSlot.unique {f : Outline} {c : Comment} {p q : Slot}
    (hm : ∀ x ∈ f.spannedSlots, Measured x.2) (hp : NearestSlot f c p) (hq : NearestSlot f c q) :
    p = q := by
  cases hp with
  | touching hp =>
    cases hq with
    | touching hq => exact hp.unique hm hq
    | following hnone | surrounding hnone | file hnone => exact (hp.ne_nil hnone).elim
  | following hnone hp =>
    cases hq with
    | touching hq => exact (hq.ne_nil hnone).elim
    | following _ hq => exact hp.unique (fun _ _ => trivial) hq
    | surrounding _ hnone' | file _ hnone' => exact (hp.ne_nil hnone').elim
  | surrounding hnone hnone' hp =>
    cases hq with
    | touching hq => exact (hq.ne_nil hnone).elim
    | following _ hq => exact (hq.ne_nil hnone').elim
    | surrounding _ _ hq => exact hp.unique hm hq
    | file _ _ hnone'' => exact (hp.ne_nil hnone'').elim
  | file hnone hnone' hnone'' =>
    cases hq with
    | touching hq => exact (hq.ne_nil hnone).elim
    | following _ hq => exact (hq.ne_nil hnone').elim
    | surrounding _ _ hq => exact (hq.ne_nil hnone'').elim
    | file => rfl

theorem sharesLine_eq (c : Comment) (n : NodeSpan) : sharesLine c n = touches c n.span :=
  Bool.and_comm _ _

theorem contains_of_sharesLine {c : Comment} {n : NodeSpan} (h : sharesLine c n = true) :
    n.span.contains c.start = true :=
  ((Bool.and_eq_true _ _).mp h).2

/-- The owner that the matcher names is a slot that the rule on the spans allows. -/
theorem exists_nearestSlot (f : Outline) (c : Comment) :
    ∃ p : Slot, NearestSlot f c p ∧ owner .nearest f.nodeSpans c = p.identifier? := by
  have htouch : smallest (f.nodeSpans.filter (sharesLine c)) =
      first (fun a b => smaller a.span b.span)
        (f.nodeSpans.filter fun n => touches c n.span) := by
    rw [smallest, funext (sharesLine_eq c)]
  simp only [owner, nearestOwner, htouch]
  cases h₁ : first (fun a b => smaller a.span b.span)
      (f.nodeSpans.filter fun n => touches c n.span) with
  | some n =>
    obtain ⟨p, hp, hleast⟩ := exists_isFirstLeast_of_first ranks_smaller (touches c) h₁
    exact ⟨p, .touching hleast, hp.symm⟩
  | none =>
    have hnone₁ := candidates_eq_nil_of_first smaller (touches c) h₁
    cases h₂ : leftmost (f.nodeSpans.filter (isBelow c)) with
    | some n =>
      obtain ⟨p, hp, hleast⟩ := exists_isFirstLeast_of_first ranks_leftOf (follows c) h₂
      exact ⟨p, .following hnone₁ hleast, hp.symm⟩
    | none =>
      have hnone₂ := candidates_eq_nil_of_first leftOf (follows c) h₂
      cases h₃ : smallest (f.nodeSpans.filter fun n => n.span.contains c.start) with
      | some n =>
        obtain ⟨p, hp, hleast⟩ := exists_isFirstLeast_of_first ranks_smaller (surrounds c) h₃
        exact ⟨p, .surrounding hnone₁ hnone₂ hleast, hp.symm⟩
      | none =>
        have hnone₃ := candidates_eq_nil_of_first smaller (surrounds c) h₃
        exact ⟨.file, .file hnone₁ hnone₂ hnone₃, rfl⟩

end Association

namespace Annotation

open Outline Association

/-- Under the nearest policy a comment is at one slot, which the rule on the spans names: the first
of the least candidates of the first kind of which there are any. The rule names no other slot,
unless a span has no measure. -/
theorem annotate_nearest_placed (wanted : Comment.Wanted) (f : Outline) (source : String)
    {c : Comment} (hc : c ∈ Comment.extract wanted source) :
    ∃ p, NearestSlot f c p ∧
      (∀ q, (∃ l, (annotate ⟨.nearest, wanted⟩ f source).1.listAt q = some l ∧ c ∈ l) ↔ q = p) ∧
      ((∀ x ∈ f.spannedSlots, Measured x.2) → ∀ q, NearestSlot f c q → q = p) := by
  obtain ⟨p, hp, howner⟩ := exists_nearestSlot f c
  refine ⟨p, hp, fun q => ?_, fun hm q hq => hq.unique hm hp⟩
  rw [mem_listAt_annotate, mem_owned, howner]
  constructor
  · exact fun h => (Slot.identifier?_injective h.2).symm
  · rintro rfl
    exact ⟨hc, rfl⟩

/-- A comment before two declarations that start in one column of the next line, inside a body. -/
theorem annotate_nearest_placed_tie :
    let below : Span := ⟨.ofNat 3 2, .ofNat 3 5, .int 17, .int 20⟩
    let f : Outline := ⟨[.trait "t" true (.bare none)
        (.bare (some ⟨.ofNat 1 7, .ofNat 4 1, .int 7, .int 22⟩)),
      .useDecl "a" (.bare (some below)), .useDecl "b" (.bare (some below))], none⟩
    let c : Comment := ⟨"a", .line, ⟨.ofNat 2 2, .ofNat 2 6, .int 10, .int 14⟩⟩
    c ∈ Comment.extract .both "trait t\n  // a\n" ∧
      ∃ l, (annotate ⟨.nearest, .both⟩ f "trait t\n  // a\n").1.listAt (.item 1) = some l ∧
        c ∈ l := by
  intro below f c
  have hc : c ∈ Comment.extract .both "trait t\n  // a\n" := by decide +kernel
  have hslot : NearestSlot f c (.item 1) :=
    .following (by decide) ⟨below, by decide, [], [(.item 2, below)], by decide, by simp⟩
  have hm : ∀ x ∈ f.spannedSlots, Measured x.2 := by decide
  obtain ⟨p, -, hplace, hunique⟩ := annotate_nearest_placed .both f "trait t\n  // a\n" hc
  exact ⟨hc, (hplace (.item 1)).mpr (hunique hm _ hslot)⟩

end Annotation
end Marginalia
