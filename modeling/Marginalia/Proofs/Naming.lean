import Marginalia.CommandLine.Style
import Marginalia.Proofs.Slots

/-!
# Names of nodes

The identifier of a node is all that later stages know of its place. It can be read
back: the index it spells is that of its item, and its ending tells a body block from a
declaration. Read in this way, the identifiers of the nodes of an outline are in
ascending order, each is the name of one node, and a listing finds the label of its item.
-/

namespace Marginalia
namespace Outline

namespace Identifier

theorem index?_toDigits (n : Nat) : index? (Nat.toDigits 10 n) = some n := by
  have hne : (Nat.toDigits 10 n).isEmpty = false :=
    List.isEmpty_eq_false_iff.mpr Nat.toDigits_ne_nil
  have hdigits : (Nat.toDigits 10 n).all Char.isDigit = true :=
    List.all_eq_true.mpr fun c hc => isDigit_of_mem_toDigits hc
  have hvalue : Nat.ofDigitChars 10 (Nat.toDigits 10 n) 0 = n := Nat.ofDigitChars_ten_toDigits
  rw [index?, hne, hdigits]
  -- Digits are added up as the library adds them up, so the two sums are one.
  exact congrArg some hvalue

@[simp] theorem declaration?_item (index : Nat) : declaration? (item index) = none := by
  simp [declaration?]

@[simp] theorem declaration?_block (declaration : String) :
    declaration? (block declaration) = some declaration := by
  simp [declaration?, Text.dropLast, toList_block]

/-- The index is read off the declaration, whether that is named itself or by its body block. -/
theorem itemIndex?_eq {id : String} {index : Nat}
    (h : (declaration? id).getD id = item index) : itemIndex? id = some index := by
  rw [itemIndex?, h]
  simp [toList_item, itemMark, index?_toDigits]

@[simp] theorem itemIndex?_item (index : Nat) : itemIndex? (item index) = some index :=
  itemIndex?_eq (by simp)

@[simp] theorem itemIndex?_block (index : Nat) : itemIndex? (block (item index)) = some index :=
  itemIndex?_eq (by simp)

/-- An identifier comes before another one if its item does, or if the two are the declaration and
the body block of one item. -/
def Precedes (a b : String) : Prop :=
  ∃ j k : Nat, itemIndex? a = some j ∧ itemIndex? b = some k ∧
    (j < k ∨ j = k ∧ isBlock a = false ∧ isBlock b = true)

theorem Precedes.ne {a b : String} (h : Precedes a b) : a ≠ b := by
  rintro rfl
  obtain ⟨j, k, hj, hk, hlt | ⟨-, hdeclaration, hblock⟩⟩ := h
  · rw [hj] at hk
    exact absurd (Option.some.inj hk) hlt.ne
  · rw [hdeclaration] at hblock
    exact Bool.false_ne_true hblock

end Identifier

open Identifier

variable {f : Outline} {n : NodeSpan} {k : Nat} {i : Item}

theorem Item.itemIndex?_of_mem_nodeSpans (h : n ∈ i.nodeSpans k) :
    itemIndex? n.identifier = some k := by
  rcases Item.mem_nodeSpans.mp h with ⟨hid, -⟩ | ⟨hid, -⟩
  · rw [← hid, itemIndex?_item]
  · rw [← hid, itemIndex?_block]

theorem Item.pairwise_nodeSpans (k : Nat) (i : Item) :
    (i.nodeSpans k).Pairwise fun n m => Precedes n.identifier m.identifier := by
  have hown : Precedes (Identifier.item k) (block (Identifier.item k)) :=
    ⟨k, k, itemIndex?_item k, itemIndex?_block k, .inr ⟨rfl, isBlock_item k, isBlock_block _⟩⟩
  rw [Item.nodeSpans]
  cases i.span? <;> cases i.bodySpan? <;> simp [hown]

theorem pairwise_nodeSpans (f : Outline) :
    (f.nodeSpans.map NodeSpan.identifier).Pairwise Precedes := by
  rw [List.pairwise_map, nodeSpans, nodeSpansFrom_eq_flatMap, List.pairwise_flatMap]
  constructor
  · rintro ⟨i, k⟩ -
    exact i.pairwise_nodeSpans k
  · apply (pairwise_zipIdx f.items 0).imp
    rintro ⟨i, j⟩ ⟨i', k⟩ hlt n hn m hm
    exact ⟨j, k, Item.itemIndex?_of_mem_nodeSpans hn, Item.itemIndex?_of_mem_nodeSpans hm, .inl hlt⟩

/-- A node is what its identifier says: the declaration or the body block of the item at an index,
with the span of that. -/
structure NodeSpan.IsOf (f : Outline) (n : NodeSpan) (k : Nat) (i : Item) : Prop where
  item_eq : f.items[k]? = some i
  index_eq : itemIndex? n.identifier = some k
  span_eq : (if isBlock n.identifier then i.bodySpan? else i.span?) = some n.span
  declaration_eq : declaration? n.identifier =
    if isBlock n.identifier then some (Identifier.item k) else none

theorem exists_isOf_of_mem_nodeSpans (h : n ∈ f.nodeSpans) : ∃ k i, n.IsOf f k i := by
  obtain ⟨k, i, hk, hn⟩ := mem_nodeSpans_iff_item.mp h
  have hindex := Item.itemIndex?_of_mem_nodeSpans hn
  rcases Item.mem_nodeSpans.mp hn with ⟨hid, hs⟩ | ⟨hid, hs⟩
  all_goals exact ⟨k, i, hk, hindex, by simp [← hid, hs], by simp [← hid]⟩

theorem NodeSpan.IsOf.labelOf_eq (h : n.IsOf f k i) : f.labelOf n.identifier = i.label := by
  have hfound : ((itemIndex? n.identifier).bind fun k => f.items[k]?) = some i := by
    rw [h.index_eq, Option.bind_some, h.item_eq]
  unfold labelOf
  rw [hfound]

theorem Item.head?_label (i : Item) : i.label.toList.head? ≠ some '?' := by
  fun_cases Item.label i <;> simp [*]

/-- A label begins with a keyword, so none is a question mark. -/
theorem Item.label_ne_unknown (i : Item) : i.label ≠ "?" := by
  intro h
  apply i.head?_label
  rw [h]
  rfl

end Outline

namespace CommandLine

open Outline

/-- The line of a node in a listing, with the given text for its label. -/
def labelledLine (isOn : Bool) (n : NodeSpan) (label : String) : String :=
  Colour.cyan.paint isOn (Text.padEnd 14 n.identifier) ++ "  " ++
    Colour.gray.paint isOn (Text.padEnd 14 n.span.text) ++ "  " ++ label ++
    (if Identifier.isBlock n.identifier then " (body)" else "")

theorem nodeLine_eq (isOn : Bool) (f : Outline) (n : NodeSpan) :
    nodeLine isOn f n = labelledLine isOn n (f.labelOf n.identifier) := rfl

theorem labelledLine_injective (isOn : Bool) (n : NodeSpan) :
    Function.Injective (labelledLine isOn n) := by
  intro a b h
  have hl := congrArg String.toList h
  simp only [labelledLine, String.toList_append] at hl
  exact String.toList_injective (List.append_cancel_left (List.append_cancel_right hl))

end CommandLine

namespace Outline

open Identifier CommandLine

/-- The identifiers of the nodes of an outline are all different, and they are in ascending order.
Each can be read back: it tells the item of its node, whether the node is the declaration or the
body block of that, and so its span, and a listing shows the label of the item. Every known span
of an item or of its body block is that of such a node. -/
theorem nodeSpans_name_their_nodes (f : Outline) :
    (f.nodeSpans.map NodeSpan.identifier).Nodup ∧
      (f.nodeSpans.map NodeSpan.identifier).Pairwise Precedes ∧
      (∀ n ∈ f.nodeSpans, ∃ k i, n.IsOf f k i ∧ ∀ isOn,
        nodeLine isOn f n = labelledLine isOn n i.label ∧
          nodeLine isOn f n ≠ labelledLine isOn n "?") ∧
      ∀ k i, f.items[k]? = some i →
        (∀ s, i.span? = some s → ⟨Identifier.item k, s⟩ ∈ f.nodeSpans) ∧
          ∀ s, i.bodySpan? = some s → ⟨block (Identifier.item k), s⟩ ∈ f.nodeSpans := by
  have hordered := pairwise_nodeSpans f
  refine ⟨hordered.imp Precedes.ne, hordered, ?_, ?_⟩
  · intro n hn
    obtain ⟨k, i, hof⟩ := exists_isOf_of_mem_nodeSpans hn
    refine ⟨k, i, hof, fun isOn => ?_⟩
    rw [nodeLine_eq, hof.labelOf_eq]
    exact ⟨rfl, (labelledLine_injective isOn n).ne i.label_ne_unknown⟩
  · intro k i hk
    have hlisted : ∀ m ∈ i.nodeSpans k, m ∈ f.nodeSpans := fun m hm =>
      mem_nodeSpans_iff_item.mpr ⟨k, i, hk, hm⟩
    constructor
    · intro s hs
      exact hlisted _ (Item.mem_nodeSpans.mpr (.inl ⟨rfl, hs⟩))
    · intro s hs
      exact hlisted _ (Item.mem_nodeSpans.mpr (.inr ⟨rfl, hs⟩))

/-- A function at index 1 and a block without a declaration span at index 10, among items without
spans: one index begins with the digits of the other. -/
theorem nodeSpans_name_their_nodes_digits :
    let s : Span := ⟨.ofNat 3 7, .ofNat 4 1, .int 17, .int 20⟩
    let x : Item := .impl "T" none (.bare none) (.bare (some s))
    let f : Outline := ⟨[.macroItem "m",
      .fn "f" false false [] (.bare (some ⟨.ofNat 1 3, .ofNat 1 4, .int 3, .int 4⟩))
        (.bare (some ⟨.ofNat 1 7, .ofNat 2 1, .int 7, .int 10⟩))] ++
      List.replicate 8 (.macroItem "m") ++ [x], none⟩
    let n : NodeSpan := ⟨"item_10_block", s⟩
    (f.items[10]? = some x ∧ x.bodySpan? = some s) ∧ n ∈ f.nodeSpans ∧ n.IsOf f 10 x ∧
      nodeLine false f n = "item_10_block   3:7-4:1         impl T (body)" ∧
      Precedes "item_1_block" "item_10_block" := by
  intro s x f n
  obtain ⟨-, hordered, hnodes, hentries⟩ := nodeSpans_name_their_nodes f
  have hn : n ∈ f.nodeSpans := (hentries 10 x rfl).2 s rfl
  obtain ⟨k, i, hof, hline⟩ := hnodes n hn
  have hk : k = 10 := Option.some.inj (hof.index_eq.symm.trans (by decide))
  have hi : i = x := Option.some.inj (hof.item_eq.symm.trans (by rw [hk]; rfl))
  rw [hk, hi] at hof
  rw [hi] at hline
  have hids : f.nodeSpans.map NodeSpan.identifier =
      ["item_1", "item_1_block", "item_10_block"] := by decide
  rw [hids] at hordered
  refine ⟨⟨rfl, rfl⟩, hn, hof, (hline false).1.trans (by decide), ?_⟩
  exact List.pairwise_pair.mp (List.pairwise_cons.mp hordered).2

end Outline
end Marginalia
