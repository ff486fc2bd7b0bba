import Marginalia.Proofs.Erasure
import Marginalia.Proofs.Nearest
import Marginalia.Proofs.Placement
import Mathlib.Data.List.InsertIdx

/-!
# Items without spans

An item without spans is no node, so no comment belongs to it. Put into an
outline it moves the items behind it by one, and all their identifiers with
them. Neither policy sees more of an identifier than which slot it names, so
every comment stays with its item, and annotation treats the outline as if the
new item were not there.
-/

namespace Marginalia

/-- The number that an element gets when another one is put in at an index. -/
def movedIndex (k n : Nat) : Nat := if n < k then n else n + 1

theorem movedIndex_injective (k : Nat) : Function.Injective (movedIndex k) := by
  intro m n h
  unfold movedIndex at h
  split_ifs at h <;> omega

theorem movedIndex_of_le {k n : Nat} (h : k ≤ n) : movedIndex k n = n + 1 :=
  if_neg (Nat.not_lt.mpr h)

theorem movedIndex_zero : movedIndex 0 = (· + 1) :=
  funext fun n => movedIndex_of_le (Nat.zero_le n)

theorem movedIndex_succ_succ (k n : Nat) : movedIndex (k + 1) (n + 1) = movedIndex k n + 1 := by
  unfold movedIndex
  split_ifs <;> omega

section

variable {α β : Type} {a : α}

theorem findIdx?_insertIdx {test : α → Bool} (ha : test a = false) (l : List α) (k : Nat) :
    (l.insertIdx k a).findIdx? test = (l.findIdx? test).map (movedIndex k) := by
  induction l generalizing k with
  | nil => cases k <;> simp [ha]
  | cons b l ih =>
    cases k with
    | zero =>
      rw [List.insertIdx_zero, List.findIdx?_cons, ha, movedIndex_zero]
      rfl
    | succ k =>
      rw [List.insertIdx_succ_cons, List.findIdx?_cons, List.findIdx?_cons, ih]
      split_ifs
      · rfl
      · simp [Function.comp_def, movedIndex_succ_succ]

theorem zipIdx_insertIdx (l : List α) (k n : Nat) :
    (l.insertIdx k a).zipIdx n =
      ((l.zipIdx n).map fun p => (p.1, movedIndex (n + k) p.2)).insertIdx k (a, n + k) := by
  induction l generalizing k n with
  | nil => cases k <;> rfl
  | cons b l ih =>
    cases k with
    | zero =>
      rw [List.insertIdx_zero, List.insertIdx_zero, List.zipIdx_cons, List.zipIdx_succ]
      congr 1
      apply List.map_congr_left
      intro p hp
      have hle : n ≤ p.2 := (List.mem_zipIdx_iff_le_and_getElem?_sub.mp hp).1
      rw [Nat.add_zero, movedIndex_of_le hle]
    | succ k =>
      have hfirst : movedIndex (n + (k + 1)) n = n := if_pos (by omega)
      rw [List.insertIdx_succ_cons, List.zipIdx_cons, List.zipIdx_cons, List.map_cons,
        List.insertIdx_succ_cons, ih, hfirst, Nat.add_right_comm n 1 k, Nat.add_assoc n k 1]

theorem flatMap_insertIdx {walk : α → List β} (ha : walk a = []) (l : List α) (k : Nat) :
    (l.insertIdx k a).flatMap walk = l.flatMap walk := by
  induction l generalizing k with
  | nil => cases k <;> simp [ha]
  | cons b l ih =>
    cases k with
    | zero => rw [List.insertIdx_zero, List.flatMap_cons, ha, List.nil_append]
    | succ k => rw [List.insertIdx_succ_cons, List.flatMap_cons, List.flatMap_cons, ih]

end

namespace Outline

/-- An outline with a further item at an index. Beyond the end nothing is put in. -/
def insertItem (f : Outline) (k : Nat) (i : Item) : Outline :=
  { f with items := f.items.insertIdx k i }

/-- An item of which neither the declaration nor the body has a known span. -/
structure Item.IsSpanless (i : Item) : Prop where
  span : i.span? = none
  bodySpan : i.bodySpan? = none

theorem Item.erase_eq_self {i : Item} (hcomments : i.comments? = none)
    (hbody : i.bodyComments? = none) : i.erase = i := by
  have hown : i.setComments i.comments? = i := by cases i <;> rfl
  have hblock : i.setBodyComments i.bodyComments? = i := by cases i <;> rfl
  rw [hcomments] at hown
  rw [hbody] at hblock
  rw [erase, hown, hblock]

/-- The slot that a slot becomes when an item is put in at an index. -/
def Slot.moved (k : Nat) : Slot → Slot
  | .item n => .item (movedIndex k n)
  | .body n => .body (movedIndex k n)
  | .file => .file

theorem Slot.moved_injective (k : Nat) : Function.Injective (Slot.moved k) := by
  intro p q h
  cases p <;> cases q <;> simp only [Slot.moved, Slot.item.injEq, Slot.body.injEq, reduceCtorEq] at h
  case item.item => rw [movedIndex_injective k h]
  case body.body => rw [movedIndex_injective k h]
  case file.file => rfl

section

variable {x : Item} (hx : x.IsSpanless) (f : Outline) (k : Nat)

include hx

theorem spannedSlots_insertItem :
    (f.insertItem k x).spannedSlots = f.spannedSlots.map fun q => (q.1.moved k, q.2) := by
  rw [spannedSlots, insertItem, zipIdx_insertIdx,
    flatMap_insertIdx (by simp [Item.spannedSlots, hx.span, hx.bodySpan]), List.flatMap_map,
    spannedSlots, List.map_flatMap]
  apply List.flatMap_congr
  intro p _
  simp only [Item.spannedSlots, Nat.zero_add]
  cases p.1.span? <;> cases p.1.bodySpan? <;> rfl

theorem spanAt_insertItem_self :
    (f.insertItem k x).spanAt (.item k) = none ∧ (f.insertItem k x).spanAt (.body k) = none := by
  simp only [spanAt, insertItem, List.getElem?_insertIdx_self]
  split_ifs <;> simp [hx.span, hx.bodySpan]

end

end Outline

namespace Association

open Outline

theorem rel_or {α β : Type} {r : α → β → Prop} {x x' : Option α} {y y' : Option β}
    (h : Option.Rel r x y) (h' : Option.Rel r x' y') : Option.Rel r (x.or x') (y.or y') := by
  cases h with
  | some h => exact .some h
  | none => exact h'

section Renaming

variable {r : NodeSpan → NodeSpan → Prop} (hr : ∀ {n m}, r n m → n.span = m.span)
  {ns ms : List NodeSpan}

include hr

theorem rel_first (before : Span → Span → Bool) (h : List.Forall₂ r ns ms) :
    Option.Rel r (first (fun a b => before a.span b.span) ns)
      (first (fun a b => before a.span b.span) ms) := by
  cases h with
  | nil => exact .none
  | cons hfirst hrest =>
    refine .some (List.rel_foldl ?_ hfirst hrest)
    intro best best' hbest n m hnm
    simp only [hr hbest, hr hnm]
    split_ifs
    · exact hnm
    · exact hbest

theorem rel_filter_span (test : Span → Bool) (h : List.Forall₂ r ns ms) :
    List.Forall₂ r (ns.filter fun n => test n.span) (ms.filter fun n => test n.span) := by
  refine List.rel_filter ?_ h
  intro n m hnm
  simp only [hr hnm]

/-- The nearest policy sees the spans of nodes only, so it takes nodes that are related pair by
pair to related owners. -/
theorem rel_nearestOwner (h : List.Forall₂ r ns ms) (c : Comment) :
    Option.Rel r (nearestOwner ns c) (nearestOwner ms c) := by
  unfold nearestOwner
  rw [funext (sharesLine_eq c)]
  apply rel_or (rel_first hr smaller (rel_filter_span hr (touches c) h))
  apply rel_or (rel_first hr leftOf (rel_filter_span hr (follows c) h))
  exact rel_first hr smaller (rel_filter_span hr (surrounds c) h)

end Renaming

section

variable {x : Item} (hx : x.IsSpanless) (f : Outline) (k : Nat) (c : Comment)

include hx

theorem conservativeSlot_insertItem :
    conservativeSlot (f.insertItem k x) c = (conservativeSlot f c).moved k := by
  unfold conservativeSlot insertItem
  rw [findIdx?_insertIdx (by simp [hx.bodySpan]), findIdx?_insertIdx (by simp [hx.span])]
  cases f.items.findIdx? fun i => i.bodySpan?.any (isInsideBlock c) with
  | some n => rfl
  | none =>
    cases f.items.findIdx? fun i => i.span?.any fun d => isOnDeclaration c d i.bodySpan? with
    | some n => rfl
    | none => rfl

/-- One node stands for a slot and the other for the slot that it becomes. -/
def BecomesNode (k : Nat) (n m : NodeSpan) : Prop :=
  n.span = m.span ∧ ∃ p : Slot, p.identifier? = some n.identifier ∧
    (p.moved k).identifier? = some m.identifier

omit hx in
theorem becomesNode_node {f : Outline} (k : Nat) {q : Slot × Span} (h : q ∈ f.spannedSlots) :
    BecomesNode k (Slot.node q) (Slot.node (q.1.moved k, q.2)) := by
  refine ⟨rfl, q.1, identifier?_of_mem_spannedSlots h, ?_⟩
  have hid := identifier?_of_mem_spannedSlots h
  obtain ⟨p, s⟩ := q
  cases p with
  | item n => rfl
  | body n => rfl
  | file => cases hid

theorem forall₂_nodeSpans_insertItem :
    List.Forall₂ (BecomesNode k) f.nodeSpans (f.insertItem k x).nodeSpans := by
  rw [nodeSpans_eq_map, nodeSpans_eq_map, spannedSlots_insertItem hx, List.map_map,
    List.forall₂_map_left_iff, List.forall₂_map_right_iff, List.forall₂_same]
  intro q hq
  exact becomesNode_node k hq

variable {f c}

/-- An owner moves with its slot. -/
theorem owner_insertItem {policy : Policy} {p : Slot}
    (h : owner policy f.nodeSpans c = p.identifier?) :
    owner policy (f.insertItem k x).nodeSpans c = (p.moved k).identifier? := by
  cases policy with
  | conservative =>
    rw [owner_conservative] at h ⊢
    rw [conservativeSlot_insertItem hx, Slot.identifier?_injective h]
  | nearest =>
    have hrel := rel_nearestOwner (fun h => h.1) (forall₂_nodeSpans_insertItem hx f k) c
    unfold owner at h ⊢
    generalize nearestOwner f.nodeSpans c = o at hrel h
    generalize nearestOwner (f.insertItem k x).nodeSpans c = o' at hrel ⊢
    cases hrel with
    | none =>
      obtain rfl : Slot.file = p := Slot.identifier?_injective h
      rfl
    | some hbecomes =>
      obtain ⟨-, q, hq, hmoved⟩ := hbecomes
      obtain rfl : q = p := Slot.identifier?_injective (hq.trans h)
      exact hmoved.symm

end

end Association

namespace Annotation

open Outline Association

section

variable {x : Item} (hx : x.IsSpanless) (f : Outline) (k : Nat)

include hx

theorem owned_insertItem (policy : Policy) (cs : List Comment) (p : Slot) :
    owned policy (f.insertItem k x) cs (p.moved k) = owned policy f cs p := by
  apply List.filter_congr
  intro c hc
  -- The slot that owned the comment decides for all others, since moving slots is injective.
  obtain ⟨q, hq, -⟩ : ∃! q : Slot, c ∈ owned policy f cs q := existsUnique_owned hc
  have howner := (mem_owned.mp hq).2
  rw [owner_insertItem hx k howner, howner, decide_eq_decide]
  constructor
  · intro h
    rw [Slot.moved_injective k (Slot.identifier?_injective h)]
  · intro h
    rw [Slot.identifier?_injective h]

omit hx in
theorem applyItem_associate (policy : Policy) (cs : List Comment) (n : Nat) (i : Item) :
    applyItem id (associate policy f.nodeSpans cs).groups n i =
      (i.setComments (nonEmpty (owned policy f cs (.item n)))).setBodyComments
        (nonEmpty (owned policy f cs (.body n))) := by
  rw [← under_associate (p := .item n) nofun, ← under_associate (p := .body n) nofun, applyItem,
    List.map_id, List.map_id]
  cases i <;> rfl

theorem applyItem_insertItem (policy : Policy) (cs : List Comment) (n : Nat) (i : Item) :
    applyItem id (associate policy (f.insertItem k x).nodeSpans cs).groups (movedIndex k n) i =
      applyItem id (associate policy f.nodeSpans cs).groups n i := by
  have hown := owned_insertItem hx f k policy cs (.item n)
  have hbody := owned_insertItem hx f k policy cs (.body n)
  rw [applyItem_associate, applyItem_associate, ← hown, ← hbody]
  rfl

theorem applyItem_insertItem_self (policy : Policy) (cs : List Comment) :
    applyItem id (associate policy (f.insertItem k x).nodeSpans cs).groups k x = x.erase := by
  obtain ⟨hitem, hblock⟩ := spanAt_insertItem_self hx f k
  rw [applyItem_associate, owned_eq_nil (p := .item k) nofun hitem,
    owned_eq_nil (p := .body k) nofun hblock]
  rfl

theorem applyFrom_insertItem (policy : Policy) (cs : List Comment) :
    applyFrom id (associate policy (f.insertItem k x).nodeSpans cs).groups 0
        (f.insertItem k x).items =
      (applyFrom id (associate policy f.nodeSpans cs).groups 0 f.items).insertIdx k x.erase := by
  rw [applyFrom_eq_map, applyFrom_eq_map, insertItem, zipIdx_insertIdx, List.map_insertIdx,
    List.map_map, Nat.zero_add]
  congr 1
  · apply List.map_congr_left
    intro p _
    exact applyItem_insertItem hx f k policy cs p.2 p.1
  · exact applyItem_insertItem_self hx f k policy cs

omit hx in
theorem stats_annotate (options : Options) (source : String) :
    let cs := Comment.extract options.wanted source
    let residual := (owned options.policy f cs .file).length
    (annotate options f source).2 =
      ⟨cs.length, f.nodeSpans.length, cs.length - residual, 0, residual⟩ := by
  intro cs residual
  have hlength := (takenFrom_append_owned_perm options f source).length_eq
  rw [List.length_append] at hlength
  rw [annotate_eq, ← Nat.eq_sub_of_add_eq hlength]

end

/-- An item without spans is invisible to annotation: put into an outline, it is found in the
annotated one at the same place, without comments, and nothing else is different. -/
theorem annotate_insertItem (options : Options) (f : Outline) (source : String) (k : Nat)
    {x : Item} (hx : x.IsSpanless) :
    annotate options (f.insertItem k x) source =
        ((annotate options f source).1.insertItem k x.erase, (annotate options f source).2) ∧
      x.erase.allComments = [] ∧
      (x.comments? = none → x.bodyComments? = none → x.erase = x) := by
  have howned := owned_insertItem hx f k options.policy
    (Comment.extract options.wanted source) .file
  have hnodes := (forall₂_nodeSpans_insertItem hx f k).length_eq
  refine ⟨Prod.ext ?_ ?_, ?_, ?_⟩
  · rw [annotate_eq, annotate_eq, applyFrom_insertItem hx, insertItem, ← howned]
    rfl
  · rw [stats_annotate, stats_annotate, ← hnodes, ← howned]
    rfl
  · simp [Item.allComments]
  · intro hcomments hbody
    exact Item.erase_eq_self hcomments hbody

/-- A function without spans in front of ten items: the comment of the tenth stays with it, under
an identifier of one more digit. -/
theorem annotate_insertItem_tenth :
    let f : Outline := ⟨List.replicate 9 (.macroItem "m") ++
      [.useDecl "a" (.bare (some ⟨.ofNat 2 0, .ofNat 2 6, .int 5, .int 11⟩))], none⟩
    let x : Item := .fn "g" false false [] (.bare none) (.bare none)
    let c : Comment := ⟨"b", .line, ⟨.ofNat 1 0, .ofNat 1 4, .int 0, .int 4⟩⟩
    annotate ⟨.nearest, .both⟩ (f.insertItem 0 x) "// b\nuse a;" =
        ((annotate ⟨.nearest, .both⟩ f "// b\nuse a;").1.insertItem 0 x,
          (annotate ⟨.nearest, .both⟩ f "// b\nuse a;").2) ∧
      (annotate ⟨.nearest, .both⟩ f "// b\nuse a;").1.listAt (.item 9) = some [c] ∧
      (annotate ⟨.nearest, .both⟩ (f.insertItem 0 x) "// b\nuse a;").1.listAt (.item 10) =
        some [c] := by
  intro f x c
  obtain ⟨hinsert, -, herase⟩ :=
    annotate_insertItem ⟨.nearest, .both⟩ f "// b\nuse a;" 0 (x := x) ⟨rfl, rfl⟩
  rw [herase rfl rfl] at hinsert
  have htenth : (annotate ⟨.nearest, .both⟩ f "// b\nuse a;").1.listAt (.item 9) = some [c] := by
    rw [listAt_annotate]
    decide +kernel
  refine ⟨hinsert, htenth, ?_⟩
  rw [hinsert]
  exact htenth

end Annotation
end Marginalia
