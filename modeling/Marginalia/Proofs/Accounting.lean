import Marginalia.Proofs.Erasure

/-!
# Where written comments end up

Groups may be written into an outline under any identifiers, those of no item
and of kinds that hold no comments included. What an identifier means there is
fixed: a slot that can hold comments takes the list under its identifier and
nothing else. Occurrences that no slot takes stay with the file, in reading
order, and the counters count them. Where the groups deal out a list without
doubles, the counters add up to it.
-/

namespace Marginalia

theorem Position.not_lt_trans {a b c : Position} (h : ¬ b < a) (k : ¬ c < b) : ¬ c < a := by
  intro hca
  rcases lt_trichotomy a b with hab | rfl | hba
  · exact k (lt_trans hca hab)
  · exact k hca
  · exact h hba

theorem Position.not_lt_or_not_lt (a b : Position) : ¬ b < a ∨ ¬ a < b := by
  by_cases h : b < a
  · right
    intro k
    exact lt_irrefl a (lt_trans k h)
  · exact .inl h

namespace Comment

variable {α : Type} (view : α → Comment)

/-- A list is sorted by the starts of its elements, and those with one start are in the order in
which they were before. -/
structure IsStableSort (before after : List α) : Prop where
  perm : after.Perm before
  sorted : after.Pairwise fun a b => ¬ (view b).start < (view a).start
  stable : ∀ p : Position,
    (after.filter fun a => (view a).start = p) = before.filter fun a => (view a).start = p

def sortBy (as : List α) : List α := as.mergeSort fun a b => startsNoLater (view a) (view b)

theorem sort_map (as : List α) : sort (as.map view) = (sortBy view as).map view :=
  (List.map_mergeSort (f := view) (s := startsNoLater) fun _ _ _ _ => rfl).symm

theorem isStableSort_sortBy (as : List α) : IsStableSort view as (sortBy view as) := by
  have htrans : ∀ a b c : α, startsNoLater (view a) (view b) = true →
      startsNoLater (view b) (view c) = true → startsNoLater (view a) (view c) = true := by
    intro a b c
    simp only [startsNoLater, decide_eq_true_eq]
    exact Position.not_lt_trans
  have htotal : ∀ a b : α,
      (startsNoLater (view a) (view b) || startsNoLater (view b) (view a)) = true := by
    intro a b
    simp only [startsNoLater, Bool.or_eq_true, decide_eq_true_eq]
    exact Position.not_lt_or_not_lt _ _
  have hperm : (sortBy view as).Perm as := List.mergeSort_perm as _
  constructor
  · exact hperm
  · apply (List.pairwise_mergeSort htrans htotal as).imp
    intro a b hab
    simpa [startsNoLater] using hab
  · intro p
    have hequal : (as.filter fun a => (view a).start = p).Pairwise
        fun a b => startsNoLater (view a) (view b) = true := by
      apply List.pairwise_of_forall_mem_list
      intro a ha b hb
      simp only [List.mem_filter, decide_eq_true_eq] at ha hb
      simp [startsNoLater, ha.2, hb.2, Position.lt_irrefl]
    have hsub := (List.sublist_mergeSort htrans htotal hequal List.filter_sublist).filter
      fun a => (view a).start = p
    rw [List.filter_filter] at hsub
    simp only [Bool.and_self] at hsub
    symm
    apply hsub.eq_of_length
    exact (hperm.filter _).length_eq.symm

end Comment

namespace Annotation

open Outline Association

variable {α : Type}

/-- Groups that deal out a list: the list has no duplicates, and what is in the groups is in the
list and occurs once. -/
structure DealsOut (groups : Groups α) (all : List α) : Prop extends Groups.Distinct groups where
  nodup_all : all.Nodup
  subset : ∀ id, (groups.get? id).getD [] ⊆ all

theorem dealsOut_of_nodup {groups : Groups α} {all : List α} (hall : all.Nodup)
    (hgroups : (groups.flatMap Prod.snd).Nodup) (hsub : groups.flatMap Prod.snd ⊆ all) :
    DealsOut groups all where
  toDistinct := Groups.distinct_of_nodup hgroups
  nodup_all := hall
  subset id := List.Subset.trans (Groups.get?_sublist groups id).subset hsub

theorem DealsOut.mem_of_mem_under {groups : Groups α} {all : List α} (h : DealsOut groups all)
    {p : Slot} {a : α} (ha : a ∈ under groups p) : a ∈ all := by
  obtain ⟨id, -, hid⟩ := mem_under.mp ha
  exact h.subset id hid

variable [DecidableEq α] (view : α → Comment) (groups : Groups α) (f : Outline) (all : List α)

/-- What the slots of an outline take, each occurrence once. -/
def placed : List α := (takenFrom groups 0 f.items).eraseDups

/-- What no slot of an outline takes, in reading order. -/
def residue : List α := Comment.sortBy view (all.filter fun a => a ∉ placed groups f)

variable {groups f} {a : α}

theorem mem_placed : a ∈ placed groups f ↔ ∃ p, a ∈ assigned groups f p := by
  rw [placed, List.mem_eraseDups, mem_takenFrom]

theorem nodup_placed : (placed groups f).Nodup := nodup_eraseDups _

variable {view all}

theorem mem_residue : a ∈ residue view groups f all ↔ a ∈ all ∧ a ∉ placed groups f := by
  rw [residue, (Comment.isStableSort_sortBy view _).perm.mem_iff, List.mem_filter,
    decide_eq_true_iff]

variable (view groups f all)

theorem apply_eq :
    apply view groups f all =
      ({ items := applyFrom view groups 0 f.items
         comments := nonEmpty ((residue view groups f all).map view) },
       { attached := (placed groups f).length
         uncarried := (f.itemSlots.flatMap (declined groups f)).length
         residual := (residue view groups f all).length }) := by
  have hfilter : (all.filter fun a => !(takenFrom groups 0 f.items).contains a) =
      all.filter fun a => a ∉ placed groups f := by
    apply List.filter_congr
    intro a _
    simp [placed]
  have hsort : Comment.sort ((all.filter fun a => a ∉ placed groups f).map view) =
      (residue view groups f all).map view := Comment.sort_map view _
  simp only [apply, hfilter, hsort, refusedFrom_eq_declined, List.length_map]
  rfl

variable {groups f all}

/-- Of a list that is dealt out every occurrence is either placed or left. -/
theorem DealsOut.length_placed_add (h : DealsOut groups all) :
    (placed groups f).length + (residue view groups f all).length = all.length := by
  have hplaced : (all.filter fun a => a ∈ placed groups f).Perm (placed groups f) := by
    apply (List.perm_ext_iff_of_nodup (h.nodup_all.filter _) nodup_placed).mpr
    intro a
    rw [List.mem_filter, decide_eq_true_iff, and_iff_right_iff_imp, mem_placed]
    rintro ⟨p, ha⟩
    exact h.mem_of_mem_under (mem_assigned.mp ha).2
  have hrest : (residue view groups f all).length =
      (all.filter fun a => a ∉ placed groups f).length :=
    (Comment.isStableSort_sortBy view _).perm.length_eq
  rw [← hplaced.length_eq, hrest]
  simpa using (List.length_eq_length_filter_add fun a => decide (a ∈ placed groups f)).symm

/-- What is meant for items that cannot hold comments is left. -/
theorem DealsOut.length_declined_le (h : DealsOut groups all) :
    (f.itemSlots.flatMap (declined groups f)).length ≤ (residue view groups f all).length := by
  have hunder : ∀ p, (declined groups f p).Sublist (under groups p) := by
    intro p
    cases p with
    | item k =>
      rw [declined]
      split_ifs <;> simp
    | body k => exact List.nil_sublist _
    | file => exact List.nil_sublist _
  have hnodup : (f.itemSlots.flatMap (declined groups f)).Nodup :=
    nodup_flatMap_itemSlots h.toDistinct hunder
  apply (hnodup.subperm _).length_le
  intro a ha
  obtain ⟨p, -, hp⟩ := List.mem_flatMap.mp ha
  obtain ⟨-, hold, hmeant⟩ := mem_declined.mp hp
  refine mem_residue.mpr ⟨h.mem_of_mem_under hmeant, ?_⟩
  intro hplaced
  obtain ⟨q, hq⟩ := mem_placed.mp hplaced
  obtain ⟨hcan, htaken⟩ := mem_assigned.mp hq
  -- Taken and declined, the occurrence would be meant for two slots.
  rw [slot_unique h.toDistinct hmeant htaken, hcan] at hold
  cases hold

/-- An outline and its counters account for groups written into an outline `f`: every slot of an
item holds what the groups have for it, `placed` lists what is there without duplicates, `rest` is
what remains of `all`, sorted and kept by the file, the counters are the lengths of such lists, and
apart from the comments the outline is `f`. -/
structure Accounts (view : α → Comment) (groups : Groups α) (f : Outline)
    (all placed rest : List α) (g : Outline) (tally : Tally) : Prop where
  held : ∀ p, p ≠ .file → g.listAt p = nonEmpty ((assigned groups f p).map view)
  mem_placed : ∀ a, a ∈ placed ↔ ∃ p, a ∈ assigned groups f p
  nodup_placed : placed.Nodup
  sorted_rest : Comment.IsStableSort view (all.filter fun a => a ∉ placed) rest
  mem_rest : ∀ a ∈ all, a ∈ rest ↔ a ∉ placed
  comments_eq : g.comments = nonEmpty (rest.map view)
  attached_eq : tally.attached = placed.length
  uncarried_eq : tally.uncarried = (f.itemSlots.flatMap (declined groups f)).length
  residual_eq : tally.residual = rest.length
  erase_eq : g.erase = f.erase

/-- Applying groups accounts for them and for the list given, whatever identifiers the groups have.
If the groups deal out the list, then the counters of what is placed and of what is left add up to
its length, and what could not be held is among the rest. -/
theorem apply_accounts (view : α → Comment) (groups : Groups α) (f : Outline) (all : List α) :
    let applied := apply view groups f all
    (∃ placed rest, Accounts view groups f all placed rest applied.1 applied.2) ∧
      (DealsOut groups all →
        applied.2.attached + applied.2.residual = all.length ∧
          applied.2.uncarried ≤ applied.2.residual) := by
  intro applied
  have happlied : applied = _ := apply_eq view groups f all
  constructor
  · refine ⟨placed groups f, residue view groups f all, ?_⟩
    constructor
    · intro p hp
      exact listAt_apply view groups all hp
    · intro a
      exact mem_placed
    · exact nodup_placed
    · exact Comment.isStableSort_sortBy view _
    · intro a ha
      rw [mem_residue]
      exact and_iff_right ha
    · rw [happlied]
    · rw [happlied]
    · rw [happlied]
    · rw [happlied]
    · exact erase_apply view groups f all
  · intro h
    rw [happlied]
    exact ⟨h.length_placed_add view, h.length_declined_le view⟩

/-- Groups for an item that holds no comments, for the body of an item without one and for no slot
at all, beside one that is placed. -/
theorem apply_accounts_unheld :
    let view : Nat → Comment := fun n => ⟨"", .line, .point (.ofNat 1 n) (.int n)⟩
    let f : Outline := ⟨[.struct "S" false [], .constant "A" false (.bare none)], none⟩
    let groups : Groups Nat := [(Identifier.item 0, [4]), (Identifier.item 1, [2, 0]),
      (Identifier.block (Identifier.item 1), [3]), ("nowhere", [1])]
    let all := [4, 0, 2, 3, 1, 5]
    let applied := apply view groups f all
    DealsOut groups all ∧
      applied.1.listAt (.item 1) = some ([2, 0].map view) ∧
      applied.2.attached = 2 ∧ applied.2.uncarried = 1 ∧
      applied.2.attached + applied.2.residual = all.length ∧
      applied.2.uncarried ≤ applied.2.residual := by
  intro view f groups all applied
  have hdeals : DealsOut groups all :=
    dealsOut_of_nodup (by decide) (by decide) (by decide)
  have hsums := (apply_accounts view groups f all).2 hdeals
  exact ⟨hdeals, by decide +kernel, by decide +kernel, by decide +kernel, hsums⟩

end Annotation
end Marginalia
