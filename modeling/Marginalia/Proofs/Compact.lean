import Marginalia.Proofs.Acceptance

/-!
# Outlines without spans as JSON

The compact form leaves out every span, and a comment cannot be read without
its span. So the compact form of an outline is read exactly if the outline has
no comment, in whatever place. It is then the plain form of the outline without
its spans, and reading gives that outline, less its empty lists.
-/

namespace Marginalia

open Schema

namespace Outline

def Site.withoutSpan (s : Site) : Site := { s with span := none }

namespace Item

/-- An item without the spans of its declaration and of its body. -/
def withoutSpans : Item → Item
  | .fn n p a ps site body => .fn n p a ps site.withoutSpan body.withoutSpan
  | .enum n p vs site => .enum n p vs site.withoutSpan
  | .trait n p site body => .trait n p site.withoutSpan body.withoutSpan
  | .impl s t site body => .impl s t site.withoutSpan body.withoutSpan
  | .useDecl path site => .useDecl path site.withoutSpan
  | .constant n p site => .constant n p site.withoutSpan
  | .static n p m site => .static n p m site.withoutSpan
  | .typeAlias n p site => .typeAlias n p site.withoutSpan
  | i => i

variable (i : Item)

@[simp] theorem kind_withoutSpans : i.withoutSpans.kind = i.kind := by
  cases i <;> rfl

@[simp] theorem ownMembers_withoutSpans : i.withoutSpans.ownMembers = i.ownMembers := by
  cases i <;> rfl

@[simp] theorem span?_withoutSpans : i.withoutSpans.span? = none := by
  cases i <;> rfl

@[simp] theorem comments?_withoutSpans : i.withoutSpans.comments? = i.comments? := by
  cases i <;> rfl

@[simp] theorem body?_withoutSpans : i.withoutSpans.body? = i.body?.map Site.withoutSpan := by
  cases i <;> rfl

theorem allComments_eq_nil_iff :
    i.allComments = [] ↔ i.comments?.getD [] = [] ∧
      ∀ body ∈ i.body?, body.comments.getD [] = [] := by
  rw [allComments, List.append_eq_nil_iff, bodyComments?]
  cases i.body? <;> simp

theorem spans_withoutSpans {i : Item} (h : i.allComments = []) : i.withoutSpans.spans = [] := by
  obtain ⟨hown, hbody⟩ := i.allComments_eq_nil_iff.mp h
  cases hb : i.body? with
  | none => simp [spans, hown, hb]
  | some body => simp [spans, hown, hb, Site.spans, Site.withoutSpan, hbody body hb]

end Item

def withoutSpans (f : Outline) : Outline := { f with items := f.items.map Item.withoutSpans }

theorem allComments_eq_nil_iff (f : Outline) :
    f.allComments = [] ↔ (∀ i ∈ f.items, i.allComments = []) ∧ f.comments.getD [] = [] := by
  rw [allComments, List.append_eq_nil_iff, List.flatMap_eq_nil_iff]

theorem spans_withoutSpans {f : Outline} (h : f.allComments = []) : f.withoutSpans.spans = [] := by
  obtain ⟨hitems, hfile⟩ := f.allComments_eq_nil_iff.mp h
  rw [spans, List.append_eq_nil_iff, List.map_eq_nil_iff, List.flatMap_eq_nil_iff]
  refine ⟨fun i hi => ?_, hfile⟩
  obtain ⟨j, hj, rfl⟩ := List.mem_map.mp hi
  exact Item.spans_withoutSpans (hitems j hj)

theorem commentsMember_compact {cs : Option (List Comment)} (h : cs.getD [] = []) :
    commentsMember true cs = commentsMember false cs := by
  rcases cs with _ | _ | ⟨c, cs⟩
  · rfl
  · rfl
  · cases h

theorem Site.members_compact {s : Site} (h : s.comments.getD [] = []) :
    s.members true = s.withoutSpan.members false := by
  rw [Site.members, Site.members, commentsMember_compact h]
  rfl

/-- The compact form of an item without comments is its plain form without spans. -/
theorem Item.members_compact {i : Item} (h : i.allComments = []) :
    i.members true = i.withoutSpans.members false := by
  obtain ⟨hown, hbody⟩ := i.allComments_eq_nil_iff.mp h
  have hblock : i.body?.map (blockMember true) =
      (i.body?.map Site.withoutSpan).map (blockMember false) := by
    cases hb : i.body? with
    | none => rfl
    | some body => simp only [Option.map_some, blockMember, Site.members_compact (hbody body hb)]
  simp only [members, kind_withoutSpans, ownMembers_withoutSpans, span?_withoutSpans,
    comments?_withoutSpans, body?_withoutSpans, commentsMember_compact hown, hblock]
  rfl

theorem toJson_compact {f : Outline} (h : f.allComments = []) :
    f.toJson true = f.withoutSpans.toJson false := by
  obtain ⟨hitems, hfile⟩ := f.allComments_eq_nil_iff.mp h
  have hvalues : f.items.map (Item.toJson true) =
      (f.items.map Item.withoutSpans).map (Item.toJson false) := by
    rw [List.map_map]
    refine List.map_congr_left fun i hi => ?_
    exact congrArg Json.obj (Item.members_compact (hitems i hi))
  rw [toJson, toJson, hvalues, commentsMember_compact hfile]
  rfl

theorem ofJson_toJson_compact {f : Outline} (h : f.allComments = []) :
    ofJson (f.toJson true) = .ok f.withoutSpans.dropEmptyLists := by
  rw [toJson_compact h]
  refine ofJson_toJson fun s hs => ?_
  rw [spans_withoutSpans h] at hs
  exact (List.not_mem_nil hs).elim

theorem not_describedBy_compact (c d : Comment) : ¬ d.DescribedBy (c.toJson true) := by
  rintro ⟨-, w, hw, -⟩
  cases hw

theorem getD_eq_nil_of_described {may : Bool} {cs ds : Option (List Comment)}
    (h : CommentsDescribedBy may ds ((commentsMember true cs).lookup "comments")) :
    cs.getD [] = [] := by
  rcases cs with _ | _ | ⟨c, cs⟩
  · rfl
  · rfl
  · obtain ⟨-, vs, hvs, hall⟩ := h
    cases hvs
    obtain ⟨d, _, hfirst, -, -⟩ := List.forall₂_cons_right_iff.mp hall
    exact (not_describedBy_compact c d hfirst).elim

namespace Item

variable (i : Item)

theorem lookup_members_compact_comments :
    (i.members true).lookup "comments" = (commentsMember true i.comments?).lookup "comments" := by
  have hblock : ((i.body?.map (blockMember true)).getD []).lookup "comments" = none := by
    cases i.body? <;> rfl
  simp [members, spanMember, List.lookup_cons, List.lookup_append, hblock,
    i.lookup_ownMembers (show "comments" ∈ Layout.structural by decide)]

theorem lookup_members_compact_block :
    (i.members true).lookup "block" = i.body?.map fun b => .obj (b.members true) := by
  have hblock : ((i.body?.map (blockMember true)).getD []).lookup "block" =
      i.body?.map fun b => .obj (b.members true) := by
    cases i.body? <;> rfl
  have hcomments : (commentsMember true i.comments?).lookup "block" = none := by
    rcases i.comments? with _ | _ | _ <;> rfl
  simp [members, spanMember, List.lookup_cons, List.lookup_append, hblock, hcomments,
    i.lookup_ownMembers (show "block" ∈ Layout.structural by decide)]

theorem allComments_eq_nil_of_described {i j : Item} (h : j.DescribedBy (i.toJson true)) :
    i.allComments = [] := by
  refine i.allComments_eq_nil_iff.mpr ⟨?_, fun body hbody => ?_⟩
  · have hcomments : CommentsDescribedBy j.holdsComments j.comments?
        ((i.members true).lookup "comments") := h.comments
    rw [lookup_members_compact_comments] at hcomments
    exact getD_eq_nil_of_described hcomments
  · have hblock : Option.Rel Site.DescribedBy j.body? ((i.members true).lookup "block") := h.block
    rw [lookup_members_compact_block, hbody] at hblock
    obtain ⟨b, -, hdescribed⟩ := exists_of_rel_some hblock
    exact getD_eq_nil_of_described hdescribed.comments

end Item

theorem allComments_eq_nil_of_described {f g : Outline} (h : g.DescribedBy (f.toJson true)) :
    f.allComments = [] := by
  refine f.allComments_eq_nil_iff.mpr ⟨?_, getD_eq_nil_of_described h.comments⟩
  obtain ⟨vs, hvs, hall⟩ := h.items
  cases hvs
  rw [List.forall₂_map_right_iff] at hall
  exact ((List.forall₂_and_left f.items g.items).mp
    (hall.flip.imp fun _ _ hi => ⟨Item.allComments_eq_nil_of_described hi, hi⟩)).1

/-- The compact form of an outline is read exactly if the outline has no comment in any place, and
reading gives the outline without its spans and its empty lists. With a comment anywhere, reading
ends in the failure of an invalid tree. -/
theorem decode_compact (f : Outline) :
    (∀ g, decode (f.toJson true) = .ok g ↔
      f.allComments = [] ∧ f.withoutSpans.dropEmptyLists = g) ∧
    (f.allComments ≠ [] →
      ∃ e, decode (f.toJson true) = .error e ∧ e.failure.code = .invalidTree) := by
  have hnone : ∀ g, decode (f.toJson true) = .ok g → f.allComments = [] := fun g h =>
    allComments_eq_nil_of_described (described_of_ofJson (decode_eq_ok.mp h)).1
  refine ⟨fun g => ?_, fun hsome => ?_⟩
  · constructor
    · intro h
      have hf := hnone g h
      rw [decode_eq_ok, ofJson_toJson_compact hf] at h
      exact ⟨hf, Checked.ok.inj h⟩
    · rintro ⟨hf, rfl⟩
      rw [decode_eq_ok, ofJson_toJson_compact hf]
  · cases h : decode (f.toJson true) with
    | error e => exact ⟨e, rfl, rfl⟩
    | ok g => exact (hsome (hnone g h)).elim

end Outline
end Marginalia
