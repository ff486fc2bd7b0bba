import Marginalia.Proofs.Annotation

/-!
# Annotation writes comment lists only

Erasing removes every list of comments from an outline and leaves the rest.
Annotation reads an outline through its spans and its kinds, which erasing
keeps, and writes nothing that erasing does not remove. So an annotation forgets
the one before it, whatever its source and options were.
-/

namespace Marginalia

namespace Outline

namespace Item

variable (i : Item)

/-- An item without the comments of its own and of its body. -/
def erase : Item := (i.setComments none).setBodyComments none

@[simp] theorem kind_erase : i.erase.kind = i.kind := by
  cases i <;> rfl

@[simp] theorem span?_erase : i.erase.span? = i.span? := by
  cases i <;> rfl

@[simp] theorem bodySpan?_erase : i.erase.bodySpan? = i.bodySpan? := by
  cases i <;> rfl

@[simp] theorem holdsComments_erase : i.erase.holdsComments = i.holdsComments := by
  rw [holdsComments, holdsComments, kind_erase]

@[simp] theorem body?_isSome_erase : i.erase.body?.isSome = i.body?.isSome := by
  rw [body?_isSome, body?_isSome, kind_erase]

@[simp] theorem comments?_erase : i.erase.comments? = none := by
  cases i <;> rfl

@[simp] theorem bodyComments?_erase : i.erase.bodyComments? = none := by
  cases i <;> rfl

theorem nodeSpans_erase (index : Nat) : i.erase.nodeSpans index = i.nodeSpans index := by
  rw [nodeSpans, nodeSpans, span?_erase, bodySpan?_erase]

theorem setBodyComments_setComments_erase (own body : Option (List Comment)) :
    (i.erase.setComments own).setBodyComments body =
      (i.setComments own).setBodyComments body := by
  cases i <;> rfl

theorem erase_setBodyComments_setComments (own body : Option (List Comment)) :
    ((i.setComments own).setBodyComments body).erase = i.erase := by
  cases i <;> rfl

end Item

/-- An outline without any list of comments. -/
def erase (f : Outline) : Outline := { items := f.items.map Item.erase, comments := none }

theorem nodeSpans_erase (f : Outline) : f.erase.nodeSpans = f.nodeSpans := by
  rw [nodeSpans, nodeSpans, nodeSpansFrom_eq_flatMap, nodeSpansFrom_eq_flatMap]
  exact flatMap_zipIdx_map (fun i k => i.nodeSpans_erase k) f.items 0

theorem listAt_erase (f : Outline) (p : Slot) : f.erase.listAt p = none := by
  cases p with
  | item k =>
    simp only [listAt, erase, List.getElem?_map]
    cases f.items[k]? with
    | none => rfl
    | some i => exact i.comments?_erase
  | body k =>
    simp only [listAt, erase, List.getElem?_map]
    cases f.items[k]? with
    | none => rfl
    | some i => exact i.bodyComments?_erase
  | file => rfl

theorem allComments_erase (f : Outline) : f.erase.allComments = [] := by
  simp [allComments, erase, Item.allComments]

end Outline

namespace Annotation

open Outline Association

section Apply

variable {α : Type} (view : α → Comment) (groups : Groups α)

theorem ownShare_erase (index : Nat) (i : Item) :
    ownShare groups index i.erase = ownShare groups index i := by
  rw [ownShare, ownShare, Item.holdsComments_erase]

theorem bodyShare_erase (index : Nat) (i : Item) :
    bodyShare groups index i.erase = bodyShare groups index i := by
  rw [bodyShare, bodyShare, Item.body?_isSome_erase]

theorem refused_erase (index : Nat) (i : Item) :
    refused groups index i.erase = refused groups index i := by
  rw [refused, refused, Item.holdsComments_erase]

theorem applyItem_erase (index : Nat) (i : Item) :
    applyItem view groups index i.erase = applyItem view groups index i := by
  rw [applyItem, applyItem, ownShare_erase, bodyShare_erase,
    Item.setBodyComments_setComments_erase]

theorem erase_applyItem (index : Nat) (i : Item) :
    (applyItem view groups index i).erase = i.erase :=
  i.erase_setBodyComments_setComments _ _

theorem applyFrom_erase (index : Nat) (items : List Item) :
    applyFrom view groups index (items.map Item.erase) = applyFrom view groups index items := by
  rw [applyFrom_eq_map, applyFrom_eq_map, List.zipIdx_map, List.map_map]
  exact List.map_congr_left fun p _ => applyItem_erase view groups p.2 p.1

theorem erase_applyFrom (index : Nat) (items : List Item) :
    (applyFrom view groups index items).map Item.erase = items.map Item.erase := by
  induction items generalizing index with
  | nil => rfl
  | cons i rest ih => rw [applyFrom, List.map_cons, List.map_cons, erase_applyItem, ih]

theorem takenFrom_erase (index : Nat) (items : List Item) :
    takenFrom groups index (items.map Item.erase) = takenFrom groups index items := by
  rw [takenFrom_eq_flatMap, takenFrom_eq_flatMap]
  refine flatMap_zipIdx_map (fun i k => ?_) items index
  rw [ownShare_erase, bodyShare_erase]

theorem refusedFrom_erase (index : Nat) (items : List Item) :
    refusedFrom groups index (items.map Item.erase) = refusedFrom groups index items := by
  rw [refusedFrom_eq_flatMap, refusedFrom_eq_flatMap]
  exact flatMap_zipIdx_map (fun i k => refused_erase groups k i) items index

variable [DecidableEq α]

theorem apply_erase (f : Outline) (all : List α) :
    apply view groups f.erase all = apply view groups f all := by
  have htaken : takenFrom groups 0 f.erase.items = takenFrom groups 0 f.items :=
    takenFrom_erase groups 0 f.items
  have hrefused : refusedFrom groups 0 f.erase.items = refusedFrom groups 0 f.items :=
    refusedFrom_erase groups 0 f.items
  have hitems : applyFrom view groups 0 f.erase.items = applyFrom view groups 0 f.items :=
    applyFrom_erase view groups 0 f.items
  simp only [apply, htaken, hrefused, hitems]

theorem erase_apply (f : Outline) (all : List α) :
    (apply view groups f all).1.erase = f.erase := by
  simp only [apply, erase, erase_applyFrom]

end Apply

/-- An annotation does not see the comments that an outline has. -/
theorem annotate_erase (options : Options) (f : Outline) (source : String) :
    annotate options f.erase source = annotate options f source := by
  simp only [annotate, nodeSpans_erase, apply_erase]

theorem erase_annotate (options : Options) (f : Outline) (source : String) :
    (annotate options f source).1.erase = f.erase :=
  erase_apply _ _ f _

/-- The nodes of an annotated outline are those it had before. -/
theorem nodeSpans_annotate (options : Options) (f : Outline) (source : String) :
    (annotate options f source).1.nodeSpans = f.nodeSpans := by
  rw [← nodeSpans_erase, erase_annotate, nodeSpans_erase]

/-- Annotation changes nothing but lists of comments, and of two annotations the last one decides,
counters included. -/
theorem annotate_overwrites (f : Outline) (first last : Options) (source source' : String) :
    (annotate first f source).1.erase = f.erase ∧
      annotate last (annotate first f source).1 source' = annotate last f source' := by
  refine ⟨erase_annotate first f source, ?_⟩
  calc
    annotate last (annotate first f source).1 source'
    _ = annotate last (annotate first f source).1.erase source' := (annotate_erase _ _ _).symm
    _ = annotate last f.erase source' := by rw [erase_annotate]
    _ = annotate last f source' := annotate_erase _ _ _

end Annotation
end Marginalia
