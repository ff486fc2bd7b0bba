import Marginalia.Annotation
import Marginalia.Proofs.Extraction
import Marginalia.Proofs.Grouping

/-!
# Annotation conserves comments

Applying groups writes under each identifier what the group holds. Since the
groups of an annotation are the comments by owner, and owners are slots of the
outline that can hold comments, each slot ends up with exactly the comments it
owns and the file with those that nobody owns: nothing is lost, doubled or left
over from before.
-/

namespace Marginalia

namespace Outline.Item

variable (cs : Option (List Comment)) (i : Item)

theorem comments?_setComments :
    (i.setComments cs).comments? = if i.holdsComments then cs else none := by
  cases i <;> rfl

theorem comments?_setBodyComments : (i.setBodyComments cs).comments? = i.comments? := by
  cases i <;> rfl

theorem body?_setComments : (i.setComments cs).body? = i.body? := by
  cases i <;> rfl

theorem bodyComments?_setBodyComments :
    (i.setBodyComments cs).bodyComments? = if i.body?.isSome then cs else none := by
  cases i <;> rfl

theorem holdsComments_of_span? {i : Item} (h : i.span?.isSome) : i.holdsComments = true := by
  cases i <;> first | rfl | simp [span?, site?] at h

theorem body?_isSome_of_bodySpan? {i : Item} (h : i.bodySpan?.isSome) : i.body?.isSome = true := by
  cases i <;> first | rfl | simp [bodySpan?, body?] at h

end Outline.Item

theorem Outline.canHold_of_spanAt {f : Outline} {p : Slot} (h : (f.spanAt p).isSome) :
    f.canHold p = true := by
  cases p with
  | item k =>
    cases hk : f.items[k]? with
    | none => simp [spanAt, hk] at h
    | some i =>
      rw [spanAt, hk] at h
      simpa [canHold, hk] using Item.holdsComments_of_span? h
  | body k =>
    cases hk : f.items[k]? with
    | none => simp [spanAt, hk] at h
    | some i =>
      rw [spanAt, hk] at h
      simpa [canHold, hk] using Item.body?_isSome_of_bodySpan? h
  | file => rfl

namespace Annotation

open Outline Association

@[simp] theorem getD_nonEmpty (cs : List Comment) : (nonEmpty cs).getD [] = cs := by
  cases cs <;> rfl

theorem nonEmpty_eq_some {cs l : List Comment} (h : nonEmpty cs = some l) : l = cs ∧ l ≠ [] := by
  cases cs with
  | nil => simp [nonEmpty] at h
  | cons c cs =>
    obtain rfl : c :: cs = l := by simpa [nonEmpty] using h
    exact ⟨rfl, List.cons_ne_nil _ _⟩

theorem nonEmpty_of_mem {cs : List Comment} {c : Comment} (h : c ∈ cs) :
    nonEmpty cs = some cs := by
  cases cs with
  | nil => simp at h
  | cons d cs => rfl

section Apply

variable {α : Type} (view : α → Comment) (groups : Groups α)

theorem comments?_applyItem (index : Nat) (i : Item) :
    (applyItem view groups index i).comments? = nonEmpty ((ownShare groups index i).map view) := by
  rw [applyItem, Item.comments?_setBodyComments, Item.comments?_setComments, ownShare]
  split_ifs <;> rfl

theorem bodyComments?_applyItem (index : Nat) (i : Item) :
    (applyItem view groups index i).bodyComments? =
      nonEmpty ((bodyShare groups index i).map view) := by
  rw [applyItem, Item.bodyComments?_setBodyComments, Item.body?_setComments, bodyShare]
  split_ifs <;> rfl

theorem allComments_applyItem (index : Nat) (i : Item) :
    (applyItem view groups index i).allComments =
      (ownShare groups index i ++ bodyShare groups index i).map view := by
  rw [Item.allComments, comments?_applyItem, bodyComments?_applyItem, getD_nonEmpty, getD_nonEmpty,
    List.map_append]

theorem applyFrom_eq_map (index : Nat) (items : List Item) :
    applyFrom view groups index items =
      (items.zipIdx index).map fun p => applyItem view groups p.2 p.1 := by
  induction items generalizing index with
  | nil => rfl
  | cons i rest ih => rw [applyFrom, ih, List.zipIdx_cons, List.map_cons]

theorem takenFrom_eq_flatMap (index : Nat) (items : List Item) :
    takenFrom groups index items = (items.zipIdx index).flatMap fun p =>
      ownShare groups p.2 p.1 ++ bodyShare groups p.2 p.1 := by
  induction items generalizing index with
  | nil => rfl
  | cons i rest ih => rw [takenFrom, ih, List.zipIdx_cons, List.flatMap_cons]

theorem refusedFrom_eq_flatMap (index : Nat) (items : List Item) :
    refusedFrom groups index items =
      (items.zipIdx index).flatMap fun p => refused groups p.2 p.1 := by
  induction items generalizing index with
  | nil => rfl
  | cons i rest ih => rw [refusedFrom, ih, List.zipIdx_cons, List.flatMap_cons]

theorem flatMap_applyFrom (index : Nat) (items : List Item) :
    (applyFrom view groups index items).flatMap Item.allComments =
      (takenFrom groups index items).map view := by
  rw [applyFrom_eq_map, takenFrom_eq_flatMap, List.flatMap_map, List.map_flatMap]
  simp only [allComments_applyItem]

/-- The list under the identifier of a slot. -/
def under (p : Slot) : List α := (p.identifier?.bind groups.get?).getD []

/-- What a slot of an outline takes: the list under its identifier, if it can hold comments. -/
def assigned (f : Outline) (p : Slot) : List α := if f.canHold p then under groups p else []

/-- What is meant for an item that cannot hold comments. -/
def declined (f : Outline) : Slot → List α
  | .item index => if f.canHold (.item index) then [] else under groups (.item index)
  | .body _ | .file => []

variable {groups} {f : Outline} {p : Slot} {a : α}

theorem mem_under :
    a ∈ under groups p ↔ ∃ id, p.identifier? = some id ∧ a ∈ (groups.get? id).getD [] := by
  rw [under]
  cases p.identifier? <;> simp

theorem mem_assigned : a ∈ assigned groups f p ↔ f.canHold p = true ∧ a ∈ under groups p := by
  rw [assigned]
  split_ifs with h <;> simp [h]

theorem mem_declined :
    a ∈ declined groups f p ↔
      (∃ k, p = .item k) ∧ f.canHold p = false ∧ a ∈ under groups p := by
  cases p with
  | item k => by_cases h : f.canHold (.item k) <;> simp [declined, h]
  | body k => simp [declined]
  | file => simp [declined]

theorem ne_file_of_mem_under (h : a ∈ under groups p) : p ≠ .file := by
  rintro rfl
  exact List.not_mem_nil h

variable (groups)

theorem ownShare_eq_assigned {k : Nat} {i : Item} (h : f.items[k]? = some i) :
    ownShare groups k i = assigned groups f (.item k) := by
  simp [ownShare, assigned, under, canHold, Slot.identifier?, h]

theorem bodyShare_eq_assigned {k : Nat} {i : Item} (h : f.items[k]? = some i) :
    bodyShare groups k i = assigned groups f (.body k) := by
  simp [bodyShare, assigned, under, canHold, Slot.identifier?, h]

theorem refused_eq_declined {k : Nat} {i : Item} (h : f.items[k]? = some i) :
    refused groups k i = declined groups f (.item k) := by
  simp [refused, declined, under, canHold, Slot.identifier?, h]

theorem flatMap_itemSlots (walk : Slot → List α) :
    f.itemSlots.flatMap walk =
      f.items.zipIdx.flatMap fun p => walk (.item p.2) ++ walk (.body p.2) := by
  have hnumbers : List.range f.items.length = f.items.zipIdx.map Prod.snd := by
    rw [List.zipIdx_map_snd, List.range_eq_range']
  rw [itemSlots, hnumbers, List.flatMap_assoc, List.flatMap_map]
  simp

/-- The items take what is assigned to their slots. -/
theorem takenFrom_eq_assigned :
    takenFrom groups 0 f.items = f.itemSlots.flatMap (assigned groups f) := by
  rw [takenFrom_eq_flatMap, flatMap_itemSlots]
  apply List.flatMap_congr
  intro p hp
  have hget : f.items[p.2]? = some p.1 := List.mk_mem_zipIdx_iff_getElem?.mp hp
  rw [ownShare_eq_assigned groups hget, bodyShare_eq_assigned groups hget]

theorem refusedFrom_eq_declined :
    refusedFrom groups 0 f.items = f.itemSlots.flatMap (declined groups f) := by
  rw [refusedFrom_eq_flatMap, flatMap_itemSlots]
  apply List.flatMap_congr
  intro p hp
  have hget : f.items[p.2]? = some p.1 := List.mk_mem_zipIdx_iff_getElem?.mp hp
  rw [refused_eq_declined groups hget, declined, declined, List.append_nil]

theorem mem_takenFrom : a ∈ takenFrom groups 0 f.items ↔ ∃ p, a ∈ assigned groups f p := by
  rw [takenFrom_eq_assigned, List.mem_flatMap]
  constructor
  · rintro ⟨p, -, ha⟩
    exact ⟨p, ha⟩
  · rintro ⟨p, ha⟩
    obtain ⟨hold, hunder⟩ := mem_assigned.mp ha
    exact ⟨p, mem_itemSlots (ne_file_of_mem_under hunder) hold, ha⟩

/-- Each slot but that of the file holds afterwards what is assigned to it. -/
theorem listAt_apply [DecidableEq α] (all : List α) (hp : p ≠ .file) :
    (apply view groups f all).1.listAt p = nonEmpty ((assigned groups f p).map view) := by
  cases p with
  | item k =>
    simp only [apply, listAt, applyFrom_eq_map, List.getElem?_map, List.getElem?_zipIdx,
      Option.map_map]
    cases hk : f.items[k]? with
    | none => simp [assigned, canHold, hk, nonEmpty]
    | some i => simp [comments?_applyItem, ownShare_eq_assigned groups hk]
  | body k =>
    simp only [apply, listAt, applyFrom_eq_map, List.getElem?_map, List.getElem?_zipIdx,
      Option.map_map]
    cases hk : f.items[k]? with
    | none => simp [assigned, canHold, hk, nonEmpty]
    | some i => simp [bodyComments?_applyItem, bodyShare_eq_assigned groups hk]
  | file => exact (hp rfl).elim

section Distinct

variable {groups} (h : groups.Distinct)

include h

theorem nodup_under (p : Slot) : (under groups p).Nodup := by
  cases p with
  | item k => exact h.nodup _
  | body k => exact h.nodup _
  | file => exact List.nodup_nil

/-- What occurs in distinct groups is meant for one slot at most. -/
theorem slot_unique {q : Slot} (hp : a ∈ under groups p) (hq : a ∈ under groups q) : p = q := by
  obtain ⟨x, hx, hax⟩ := mem_under.mp hp
  obtain ⟨y, hy, hay⟩ := mem_under.mp hq
  have hxy : x = y := by
    by_contra hne
    exact h.disjoint x y hne hax hay
  apply Slot.identifier?_injective
  rw [hx, hy, hxy]

/-- Parts of distinct groups, slot by slot, are without duplicates. -/
theorem nodup_flatMap_itemSlots {part : Slot → List α}
    (hpart : ∀ p, (part p).Sublist (under groups p)) : (f.itemSlots.flatMap part).Nodup := by
  rw [List.nodup_flatMap]
  constructor
  · intro p _
    exact (hpart p).nodup (nodup_under h p)
  · apply nodup_itemSlots.imp
    intro p q hne a hp hq
    exact hne (slot_unique h ((hpart p).subset hp) ((hpart q).subset hq))

theorem nodup_takenFrom : (takenFrom groups 0 f.items).Nodup := by
  rw [takenFrom_eq_assigned]
  apply nodup_flatMap_itemSlots h
  intro p
  rw [assigned]
  split_ifs <;> simp

end Distinct

end Apply

/-- The comments that a slot of an outline owns under a policy. -/
def owned (policy : Policy) (f : Outline) (cs : List Comment) (p : Slot) : List Comment :=
  cs.filter fun c => owner policy f.nodeSpans c = p.identifier?

section Owned

variable {policy : Policy} {f : Outline} {cs : List Comment} {c : Comment}

theorem mem_owned {p : Slot} :
    c ∈ owned policy f cs p ↔ c ∈ cs ∧ owner policy f.nodeSpans c = p.identifier? := by
  simp [owned]

theorem owned_eq_nil {p : Slot} (hp : p ≠ .file) (h : f.spanAt p = none) :
    owned policy f cs p = [] := by
  refine List.eq_nil_iff_forall_not_mem.mpr fun c hc => ?_
  have hs := spanAt_isSome_of_owner hp (mem_owned.mp hc).2
  rw [h] at hs
  exact Bool.false_ne_true hs

theorem existsUnique_owned (hc : c ∈ cs) : ∃! p : Slot, c ∈ owned policy f cs p := by
  refine existsUnique_of_exists_of_unique ?_ ?_
  · cases h : owner policy f.nodeSpans c with
    | none => exact ⟨.file, mem_owned.mpr ⟨hc, h⟩⟩
    | some id =>
      obtain ⟨p, hp, -⟩ := exists_slot_of_owner h
      exact ⟨p, mem_owned.mpr ⟨hc, h.trans hp.symm⟩⟩
  · intro p q hp hq
    exact Slot.identifier?_injective ((mem_owned.mp hp).2.symm.trans (mem_owned.mp hq).2)

/-- What matching puts under the identifier of a slot is what the slot owns. -/
theorem under_associate {p : Slot} (hp : p ≠ .file) :
    under (associate policy f.nodeSpans cs).groups p = owned policy f cs p := by
  cases p with
  | item k => exact get?_associate policy f.nodeSpans cs _
  | body k => exact get?_associate policy f.nodeSpans cs _
  | file => exact (hp rfl).elim

theorem assigned_associate {p : Slot} (hp : p ≠ .file) :
    assigned (associate policy f.nodeSpans cs).groups f p = owned policy f cs p := by
  rw [assigned, under_associate hp]
  split_ifs with hold
  · rfl
  · symm
    apply owned_eq_nil hp
    rw [← Option.not_isSome_iff_eq_none]
    intro hs
    exact hold (canHold_of_spanAt hs)

theorem refusedFrom_associate :
    refusedFrom (associate policy f.nodeSpans cs).groups 0 f.items = [] := by
  rw [refusedFrom_eq_declined, List.eq_nil_iff_forall_not_mem]
  intro c hc
  obtain ⟨p, -, hp⟩ := List.mem_flatMap.mp hc
  obtain ⟨-, hold, hunder⟩ := mem_declined.mp hp
  have hfile : p ≠ .file := ne_file_of_mem_under hunder
  rw [under_associate hfile, ← assigned_associate hfile, mem_assigned, hold] at hunder
  exact Bool.false_ne_true hunder.1

theorem mem_takenFrom_associate :
    c ∈ takenFrom (associate policy f.nodeSpans cs).groups 0 f.items ↔
      c ∈ cs ∧ owner policy f.nodeSpans c ≠ none := by
  rw [mem_takenFrom]
  constructor
  · rintro ⟨p, hm⟩
    have hp : p ≠ .file := ne_file_of_mem_under (mem_assigned.mp hm).2
    rw [assigned_associate hp, mem_owned] at hm
    refine ⟨hm.1, ?_⟩
    rw [hm.2]
    intro hnone
    exact hp (Slot.identifier?_injective hnone)
  · rintro ⟨hc, ho⟩
    obtain ⟨id, hid⟩ := Option.ne_none_iff_exists'.mp ho
    obtain ⟨p, hp, -⟩ := exists_slot_of_owner hid
    have hfile : p ≠ .file := by
      rintro rfl
      cases hp
    refine ⟨p, ?_⟩
    rw [assigned_associate hfile, mem_owned]
    exact ⟨hc, hid.trans hp.symm⟩

theorem filter_takenFrom_associate :
    (cs.filter fun c =>
        !(takenFrom (associate policy f.nodeSpans cs).groups 0 f.items).contains c) =
      owned policy f cs .file := by
  refine List.filter_congr fun c hc => ?_
  rw [Bool.eq_iff_iff, Bool.not_eq_true', ← Bool.not_eq_true, List.contains_iff_mem,
    mem_takenFrom_associate, decide_eq_true_iff]
  simp only [hc, true_and, ne_eq, not_not]
  rfl

end Owned

theorem sort_eq_self {cs : List Comment} (h : cs.Pairwise fun a b => a.start < b.start) :
    Comment.sort cs = cs := by
  refine List.mergeSort_of_pairwise (h.imp fun {a b} hab => ?_)
  exact decide_eq_true fun hba => Position.lt_irrefl _ (Position.lt_trans hab hba)

section Annotate

variable (options : Options) (f : Outline) (source : String)

theorem pairwise_owned (p : Slot) :
    (owned options.policy f (Comment.extract options.wanted source) p).Pairwise
      fun a b => a.start < b.start :=
  (Comment.pairwise_start_extract options.wanted source).filter _

/-- The comments of the file after an annotation, in full. -/
theorem annotate_eq :
    let cs := Comment.extract options.wanted source
    let groups := (associate options.policy f.nodeSpans cs).groups
    annotate options f source =
      ({ items := applyFrom id groups 0 f.items
         comments := nonEmpty (owned options.policy f cs .file) },
       { comments := cs.length
         nodeSpans := f.nodeSpans.length
         tally :=
          { attached := (takenFrom groups 0 f.items).length
            uncarried := 0
            residual := (owned options.policy f cs .file).length } }) := by
  intro cs groups
  have hr : Comment.sort ((cs.filter fun c => !(takenFrom groups 0 f.items).contains c).map id) =
      owned options.policy f cs .file := by
    rw [List.map_id, filter_takenFrom_associate]
    exact sort_eq_self (pairwise_owned options f source .file)
  have hdistinct : groups.Distinct :=
    distinct_associate (Comment.nodup_extract options.wanted source)
  have hd : (takenFrom groups 0 f.items).eraseDups = takenFrom groups 0 f.items :=
    eraseDups_eq_self (nodup_takenFrom hdistinct)
  have hu : (refusedFrom groups 0 f.items).length = 0 := by
    rw [refusedFrom_associate, List.length_nil]
  simp only [annotate, apply]
  rw [hr, hd, hu]

/-- After an annotation each slot holds the comments it owns. -/
theorem listAt_annotate (p : Slot) :
    (annotate options f source).1.listAt p =
      nonEmpty (owned options.policy f (Comment.extract options.wanted source) p) := by
  by_cases hp : p = .file
  · subst hp
    rw [annotate_eq]
    rfl
  · rw [annotate, listAt_apply id _ _ hp, assigned_associate hp, List.map_id]

theorem mem_listAt_annotate (p : Slot) (c : Comment) :
    (∃ l, (annotate options f source).1.listAt p = some l ∧ c ∈ l) ↔
      c ∈ owned options.policy f (Comment.extract options.wanted source) p := by
  rw [listAt_annotate]
  constructor
  · rintro ⟨l, hl, hc⟩
    rwa [(nonEmpty_eq_some hl).1] at hc
  · intro hc
    exact ⟨_, nonEmpty_of_mem hc, hc⟩

theorem takenFrom_append_owned_perm :
    let cs := Comment.extract options.wanted source
    (takenFrom (associate options.policy f.nodeSpans cs).groups 0 f.items ++
      owned options.policy f cs .file).Perm cs := by
  intro cs
  have hcs : cs.Nodup := Comment.nodup_extract options.wanted source
  refine (List.perm_ext_iff_of_nodup (List.nodup_append'.mpr ⟨?_, ?_, ?_⟩) hcs).mpr fun c => ?_
  · exact nodup_takenFrom (distinct_associate hcs)
  · exact hcs.filter _
  · intro c ht ho
    exact (mem_takenFrom_associate.mp ht).2 (mem_owned.mp ho).2
  · rw [List.mem_append, mem_takenFrom_associate, mem_owned, ← and_or_left]
    exact and_iff_left (Classical.em _).symm

theorem allComments_annotate :
    let cs := Comment.extract options.wanted source
    (annotate options f source).1.allComments =
      takenFrom (associate options.policy f.nodeSpans cs).groups 0 f.items ++
        owned options.policy f cs .file := by
  rw [annotate_eq]
  simp only [allComments, flatMap_applyFrom, List.map_id, getD_nonEmpty]

end Annotate

/-- An annotated outline and its counters keep a list of comments: each comment is in exactly one
list of the outline and nothing else is in any, the lists are in order and none is empty, and the
counters say so. -/
structure Conserves (cs : List Comment) (f : Outline) (stats : Stats) : Prop where
  perm : f.allComments.Perm cs
  unique : ∀ c ∈ cs, ∃! p : Slot, ∃ l, f.listAt p = some l ∧ c ∈ l
  ordered : ∀ p l, f.listAt p = some l → l ≠ [] ∧ l.Pairwise fun a b => a.start < b.start
  comments_eq : stats.comments = cs.length
  attached_add_residual : stats.tally.attached + stats.tally.residual = cs.length
  residual_eq : stats.tally.residual = (f.comments.getD []).length
  uncarried_eq : stats.tally.uncarried = 0

/-- Annotation conserves the comments of the source, whatever comments the outline had before. -/
theorem annotate_conserves_comments (options : Options) (f : Outline) (source : String) :
    Conserves (Comment.extract options.wanted source) (annotate options f source).1
      (annotate options f source).2 := by
  have hperm := takenFrom_append_owned_perm options f source
  refine ⟨?_, ?_, ?_, ?_, ?_, ?_, ?_⟩
  · rw [allComments_annotate]
    exact hperm
  · intro c hc
    simp only [mem_listAt_annotate]
    exact existsUnique_owned hc
  · intro p l hl
    rw [listAt_annotate] at hl
    obtain ⟨rfl, hne⟩ := nonEmpty_eq_some hl
    exact ⟨hne, pairwise_owned options f source p⟩
  all_goals simp only [annotate_eq, getD_nonEmpty]
  · rw [← List.length_append]
    exact hperm.length_eq

end Annotation
end Marginalia
