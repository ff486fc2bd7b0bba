import Marginalia.Outline.NodeSpan
import Marginalia.Proofs.Numbered

/-!
# Slots for comments

A comment in an outline is held by an item, by the body block of an item or by
the file. Items and blocks go by identifiers that spell their index; different
slots have different identifiers, so an identifier stands for one slot. The
nodes of an outline are the slots with a known span.
-/

namespace Marginalia
namespace Outline

namespace Identifier

theorem toList_item (index : Nat) :
    (item index).toList = ['i', 't', 'e', 'm', '_'] ++ Nat.toDigits 10 index := by
  simp [item, ofNumeral, itemMark]

theorem toList_block (declaration : String) :
    (block declaration).toList = declaration.toList ++ ['_', 'b', 'l', 'o', 'c', 'k'] := by
  simp [block, blockMark]

theorem item_injective {j k : Nat} (h : item j = item k) : j = k := by
  have hl := congrArg String.toList h
  rw [toList_item, toList_item] at hl
  exact toDigits_injective (List.append_cancel_left hl)

theorem block_injective {a b : String} (h : block a = block b) : a = b := by
  have hl := congrArg String.toList h
  rw [toList_block, toList_block] at hl
  exact String.toList_injective (List.append_cancel_right hl)

@[simp] theorem isBlock_block (declaration : String) : isBlock (block declaration) = true := by
  rw [isBlock, Text.endsWith, List.isSuffixOf_iff_suffix, toList_block]
  exact List.suffix_append _ _

/-- A numeral has no letter, so no item is named like a block. -/
@[simp] theorem isBlock_item (index : Nat) : isBlock (item index) = false := by
  rw [← Bool.not_eq_true, isBlock, Text.endsWith, List.isSuffixOf_iff_suffix, toList_item]
  intro h
  have hk : 'k' ∈ ['i', 't', 'e', 'm', '_'] ++ Nat.toDigits 10 index :=
    h.subset (by decide)
  rcases List.mem_append.mp hk with hk | hk
  · simp at hk
  · exact notMem_toDigits (by decide) index hk

theorem item_ne_block (index : Nat) (declaration : String) : item index ≠ block declaration := by
  intro h
  have hb := isBlock_block declaration
  rw [← h, isBlock_item] at hb
  simp at hb

end Identifier

/-- A slot for comments: that of an item, of the body block of an item, or of the file. -/
inductive Slot where
  | item (index : Nat)
  | body (index : Nat)
  | file
deriving DecidableEq, Repr

namespace Slot

/-- The identifier of a slot; the file has none. -/
def identifier? : Slot → Option String
  | .item index => some (Identifier.item index)
  | .body index => some (Identifier.block (Identifier.item index))
  | .file => none

theorem identifier?_injective {p q : Slot} (h : p.identifier? = q.identifier?) : p = q := by
  cases p <;> cases q <;> simp only [identifier?, Option.some.injEq, reduceCtorEq] at h
  case item.item => rw [Identifier.item_injective h]
  case item.body => exact (Identifier.item_ne_block _ _ h).elim
  case body.item => exact (Identifier.item_ne_block _ _ h.symm).elim
  case body.body => rw [Identifier.item_injective (Identifier.block_injective h)]
  case file.file => rfl

end Slot

variable (f : Outline)

def listAt : Slot → Option (List Comment)
  | .item index => f.items[index]?.bind Item.comments?
  | .body index => f.items[index]?.bind Item.bodyComments?
  | .file => f.comments

/-- Whether an outline has a slot and can hold comments there. -/
def canHold : Slot → Bool
  | .item index => f.items[index]?.any Item.holdsComments
  | .body index => f.items[index]?.any fun i => i.body?.isSome
  | .file => true

/-- The slots of the items of an outline, that of an item before that of its body. -/
def itemSlots : List Slot := (List.range f.items.length).flatMap fun k => [.item k, .body k]

def spanAt : Slot → Option Span
  | .item index => f.items[index]?.bind Item.span?
  | .body index => f.items[index]?.bind Item.bodySpan?
  | .file => none

variable {f}

theorem nodup_itemSlots : f.itemSlots.Nodup := by
  rw [itemSlots, List.nodup_flatMap]
  constructor
  · simp
  · apply List.nodup_range.imp
    intro j k hne
    simp [List.disjoint_left, hne]

theorem mem_itemSlots {p : Slot} (hp : p ≠ .file) (h : f.canHold p = true) : p ∈ f.itemSlots := by
  have hlt : ∀ {k : Nat} {test : Item → Bool}, f.items[k]?.any test = true →
      k < f.items.length := by
    intro k test hk
    by_contra hge
    simp [List.getElem?_eq_none (Nat.le_of_not_lt hge)] at hk
  cases p with
  | item k => simpa [itemSlots] using hlt h
  | body k => simpa [itemSlots] using hlt h
  | file => exact (hp rfl).elim

theorem Item.mem_nodeSpans {index : Nat} {i : Item} {n : NodeSpan} :
    n ∈ i.nodeSpans index ↔
      Identifier.item index = n.identifier ∧ i.span? = some n.span ∨
        Identifier.block (Identifier.item index) = n.identifier ∧ i.bodySpan? = some n.span := by
  obtain ⟨id, s⟩ := n
  simp [Item.nodeSpans, and_comm]

theorem nodeSpansFrom_eq_flatMap (index : Nat) (items : List Item) :
    nodeSpansFrom index items = (items.zipIdx index).flatMap fun p => p.1.nodeSpans p.2 := by
  induction items generalizing index with
  | nil => rfl
  | cons i rest ih => rw [nodeSpansFrom, ih, List.zipIdx_cons, List.flatMap_cons]

theorem mem_nodeSpans_iff_item {n : NodeSpan} :
    n ∈ f.nodeSpans ↔ ∃ (k : Nat) (i : Item), f.items[k]? = some i ∧ n ∈ i.nodeSpans k := by
  rw [nodeSpans, nodeSpansFrom_eq_flatMap, mem_flatMap_zipIdx]

/-- The nodes of an outline are its slots with a known span. -/
theorem mem_nodeSpans {n : NodeSpan} :
    n ∈ f.nodeSpans ↔
      ∃ p : Slot, p.identifier? = some n.identifier ∧ f.spanAt p = some n.span := by
  rw [mem_nodeSpans_iff_item]
  simp only [Item.mem_nodeSpans]
  constructor
  · rintro ⟨k, i, hk, ⟨hid, hs⟩ | ⟨hid, hs⟩⟩
    · exact ⟨.item k, congrArg some hid, by simp [spanAt, hk, hs]⟩
    · exact ⟨.body k, congrArg some hid, by simp [spanAt, hk, hs]⟩
  · rintro ⟨p, hid, hs⟩
    cases p with
    | item k =>
      obtain ⟨i, hk, hi⟩ := Option.bind_eq_some_iff.mp hs
      exact ⟨k, i, hk, .inl ⟨Option.some.inj hid, hi⟩⟩
    | body k =>
      obtain ⟨i, hk, hi⟩ := Option.bind_eq_some_iff.mp hs
      exact ⟨k, i, hk, .inr ⟨Option.some.inj hid, hi⟩⟩
    | file => simp [spanAt] at hs

end Outline
end Marginalia
