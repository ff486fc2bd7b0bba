import Marginalia.Proofs.Annotation

/-!
# Placement under the conservative policy

The matcher sees identifiers only: it tells blocks from declarations by the
ending of a string and finds the block of a declaration by joining strings.
What comes out is a rule on the items themselves, in their order.
-/

namespace Marginalia
namespace Association

open Outline

/-- Where a comment belongs under the conservative policy: to the first body block that it is
strictly inside, or else to the first item on whose declaration it is, or else to the file. -/
def conservativeSlot (f : Outline) (c : Comment) : Slot :=
  match f.items.findIdx? fun i => i.bodySpan?.any (isInsideBlock c) with
  | some k => .body k
  | none =>
    match f.items.findIdx? fun i => i.span?.any fun d => isOnDeclaration c d i.bodySpan? with
    | some k => .item k
    | none => .file

theorem spanOf_nodeSpans {f : Outline} {p : Slot} {id : String} (hp : p.identifier? = some id) :
    spanOf f.nodeSpans id = f.spanAt p := by
  rw [spanOf]
  cases h : f.nodeSpans.find? fun n => n.identifier == id with
  | none =>
    refine (Option.eq_none_iff_forall_ne_some.mpr fun s hs => ?_).symm
    have hm : (⟨id, s⟩ : NodeSpan) ∈ f.nodeSpans := mem_nodeSpans.mpr ⟨p, hp, hs⟩
    exact List.find?_eq_none.mp h _ hm (beq_self_eq_true id)
  | some n =>
    have hid : n.identifier = id := by simpa using List.find?_some h
    obtain ⟨q, hq, hs⟩ := mem_nodeSpans.mp (List.mem_of_find?_eq_some h)
    rw [hid] at hq
    rw [Slot.identifier?_injective (hp.trans hq.symm), hs]
    rfl

/-- A search among nodes that can stop at one node of each item finds the first such item. -/
theorem map_find?_nodeSpansFrom (test : NodeSpan → Bool) (good : Item → Bool)
    (name : Nat → String) (index : Nat) (items : List Item)
    (h : ∀ k i, items[k]? = some i →
      ((i.nodeSpans (index + k)).find? test).map NodeSpan.identifier =
        if good i then some (name (index + k)) else none) :
    ((nodeSpansFrom index items).find? test).map NodeSpan.identifier =
      (items.findIdx? good).map fun k => name (index + k) := by
  induction items generalizing index with
  | nil => rfl
  | cons i rest ih =>
    have hi := h 0 i rfl
    rw [Nat.add_zero] at hi
    have hrest := ih (index + 1) fun k j hk => by
      rw [Nat.add_right_comm]
      exact h (k + 1) j hk
    rw [nodeSpansFrom, List.find?_append, Option.map_or, hrest, hi, List.findIdx?_cons]
    cases hg : good i with
    | true => rfl
    | false =>
      simp only [Bool.false_eq_true, if_false, Option.none_or, Option.map_map]
      congr 1
      funext k
      rw [Function.comp_apply, Nat.add_right_comm, Nat.add_assoc]

theorem map_find?_nodeSpans_block (c : Comment) (index : Nat) (i : Item) :
    ((i.nodeSpans index).find? fun n =>
        Identifier.isBlock n.identifier && isInsideBlock c n.span).map NodeSpan.identifier =
      if i.bodySpan?.any (isInsideBlock c) then some (Identifier.block (Identifier.item index))
      else none := by
  rw [Item.nodeSpans]
  cases i.span? <;> cases hb : i.bodySpan? with
  | none => simp
  | some b => cases hin : isInsideBlock c b <;> simp [hin]

theorem map_find?_nodeSpans_declaration (c : Comment) (block : String → Option Span) (index : Nat)
    (i : Item) :
    ((i.nodeSpans index).find? fun n =>
        !Identifier.isBlock n.identifier && isOnDeclaration c n.span (block n.identifier)).map
        NodeSpan.identifier =
      if i.span?.any fun d => isOnDeclaration c d (block (Identifier.item index)) then
        some (Identifier.item index)
      else none := by
  rw [Item.nodeSpans]
  cases i.bodySpan? <;> cases hs : i.span? with
  | none => simp
  | some d => cases hon : isOnDeclaration c d (block (Identifier.item index)) <;> simp [hon]

theorem map_find?_block (f : Outline) (c : Comment) :
    (f.nodeSpans.find? fun n => Identifier.isBlock n.identifier && isInsideBlock c n.span).map
        NodeSpan.identifier =
      (f.items.findIdx? fun i => i.bodySpan?.any (isInsideBlock c)).map fun k =>
        Identifier.block (Identifier.item k) := by
  have h := map_find?_nodeSpansFrom _ _ (fun k => Identifier.block (Identifier.item k)) 0 f.items
    fun k i _ => map_find?_nodeSpans_block c (0 + k) i
  simp only [Nat.zero_add] at h
  exact h

/-- The first declaration that a comment is on. Its block is looked up among all the nodes. -/
theorem map_find?_declaration (f : Outline) (c : Comment) :
    (f.nodeSpans.find? fun n => !Identifier.isBlock n.identifier &&
        isOnDeclaration c n.span (spanOf f.nodeSpans (Identifier.block n.identifier))).map
        NodeSpan.identifier =
      (f.items.findIdx? fun i => i.span?.any fun d => isOnDeclaration c d i.bodySpan?).map
        Identifier.item := by
  have h := map_find?_nodeSpansFrom _
    (fun i => i.span?.any fun d => isOnDeclaration c d i.bodySpan?)
    Identifier.item 0 f.items fun k i hk => by
      have hspan : spanOf f.nodeSpans (Identifier.block (Identifier.item (0 + k))) =
          i.bodySpan? := by
        rw [Nat.zero_add, spanOf_nodeSpans (p := .body k) rfl, spanAt, hk, Option.bind_some]
      have hd := map_find?_nodeSpans_declaration c
        (fun id => spanOf f.nodeSpans (Identifier.block id)) (0 + k) i
      rw [hspan] at hd
      exact hd
  simp only [Nat.zero_add] at h
  exact h

/-- The owner that the matcher names is the slot that the rule on the items names. -/
theorem owner_conservative (f : Outline) (c : Comment) :
    owner .conservative f.nodeSpans c = (conservativeSlot f c).identifier? := by
  simp only [owner, conservativeOwner, Option.map_or, map_find?_block, map_find?_declaration,
    conservativeSlot]
  cases f.items.findIdx? fun i => i.bodySpan?.any (isInsideBlock c) with
  | some k => rfl
  | none =>
    cases f.items.findIdx? fun i => i.span?.any fun d => isOnDeclaration c d i.bodySpan? with
    | some k => rfl
    | none => rfl

end Association

namespace Annotation

open Outline Association

/-- Under the conservative policy a comment is where the rule on the items says, and nowhere
else. -/
theorem annotate_conservative_iff (wanted : Comment.Wanted) (f : Outline) (source : String)
    {c : Comment} (hc : c ∈ Comment.extract wanted source) (p : Slot) :
    (∃ l, (annotate ⟨.conservative, wanted⟩ f source).1.listAt p = some l ∧ c ∈ l) ↔
      p = conservativeSlot f c := by
  rw [mem_listAt_annotate, mem_owned, owner_conservative]
  constructor
  · exact fun h => (Slot.identifier?_injective h.2).symm
  · rintro rfl
    exact ⟨hc, rfl⟩

/-- A comment in a body, behind an item without a span. -/
theorem annotate_conservative_iff_body :
    let f : Outline := ⟨[.union "u" none,
      .fn "f" false false [] (.bare (some ⟨.ofNat 1 0, .ofNat 1 6, .int 0, .int 6⟩))
        (.bare (some ⟨.ofNat 1 7, .ofNat 3 1, .int 7, .int 17⟩))], none⟩
    let c : Comment := ⟨"a", .line, ⟨.ofNat 2 2, .ofNat 2 6, .int 9, .int 13⟩⟩
    c ∈ Comment.extract .both "fn f()\n  // a\n" ∧
      ∃ l, (annotate ⟨.conservative, .both⟩ f "fn f()\n  // a\n").1.listAt (.body 1) = some l ∧
        c ∈ l := by
  intro f c
  have hc : c ∈ Comment.extract .both "fn f()\n  // a\n" := by decide +kernel
  have hslot : Slot.body 1 = conservativeSlot f c := by decide
  exact ⟨hc, (annotate_conservative_iff .both f _ hc (.body 1)).mpr hslot⟩

end Annotation
end Marginalia
