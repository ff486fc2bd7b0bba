import Marginalia.Proofs.Ownership

/-!
# Comments parted by their owners

Matching goes through the comments in order and adds each one at the end of a
list. What comes out is the input parted by owner: under each identifier the
comments that it owns, in their order, and apart from them the comments without
an owner. The identifiers stand in the order of their first comments.
-/

namespace Marginalia

theorem eraseDups_concat {α : Type} [BEq α] [LawfulBEq α] (as : List α) (a : α) :
    (as ++ [a]).eraseDups = if a ∈ as then as.eraseDups else as.eraseDups ++ [a] := by
  rw [List.eraseDups_append]
  by_cases h : a ∈ as <;> simp [List.cons_removeAll, List.eraseDups_cons, h]

theorem nodup_eraseDups {α : Type} [BEq α] [LawfulBEq α] (as : List α) : as.eraseDups.Nodup := by
  induction as using List.reverseRecOn with
  | nil => exact List.nodup_nil
  | append_singleton as a ih =>
    rw [eraseDups_concat]
    split_ifs with h
    · exact ih
    · apply List.Nodup.append ih (List.nodup_singleton a)
      simpa using h

theorem eraseDups_eq_self {α : Type} [BEq α] [LawfulBEq α] {as : List α} (h : as.Nodup) :
    as.eraseDups = as := by
  induction as using List.reverseRecOn with
  | nil => rfl
  | append_singleton as a ih =>
    have hnotMem : a ∉ as := by simpa using (List.nodup_append'.mp h).2.2
    rw [eraseDups_concat, if_neg hnotMem, ih h.of_append_left]

namespace Association

open Outline

namespace Groups

variable {α : Type} {keys : List String} {list : String → List α} {id : String}

@[simp] theorem get?_nil (key : String) : get? ([] : Groups α) key = none := rfl

@[simp] theorem get?_cons (name key : String) (as : List α) (rest : Groups α) :
    get? ((name, as) :: rest) key = if key = name then some as else get? rest key := by
  simp only [get?, List.lookup_cons]
  by_cases h : key = name
  · simp [h]
  · simp [h, beq_eq_false_iff_ne.mpr h]

theorem get?_map (keys : List String) (list : String → List α) (id : String) :
    get? (keys.map fun key => (key, list key)) id = if id ∈ keys then some (list id) else none := by
  induction keys with
  | nil => rfl
  | cons key keys ih =>
    rw [List.map_cons, get?_cons, ih]
    by_cases h : id = key <;> simp [h]

theorem push_of_notMem (h : id ∉ keys) (a : α) :
    push (keys.map fun key => (key, list key)) id a =
      (keys.map fun key => (key, list key)) ++ [(id, [a])] := by
  induction keys with
  | nil => rfl
  | cons key keys ih =>
    obtain ⟨hkey, hkeys⟩ : id ≠ key ∧ id ∉ keys := by simpa using h
    simp [push, Ne.symm hkey, ih hkeys]

theorem push_of_mem (hnodup : keys.Nodup) (h : id ∈ keys) (a : α) :
    push (keys.map fun key => (key, list key)) id a =
      keys.map fun key => (key, if key = id then list key ++ [a] else list key) := by
  induction keys with
  | nil => simp at h
  | cons key keys ih =>
    obtain ⟨hkey, hkeys⟩ := List.nodup_cons.mp hnodup
    by_cases heq : key = id
    · subst heq
      have hrest : ∀ k ∈ keys, (k, if k = key then list k ++ [a] else list k) = (k, list k) := by
        intro k hk
        rw [if_neg]
        rintro rfl
        exact hkey hk
      rw [List.map_cons, push, if_pos rfl, List.map_cons, if_pos rfl, List.map_congr_left hrest]
    · have hmem : id ∈ keys := (List.mem_cons.mp h).resolve_left (Ne.symm heq)
      simp [push, heq, ih hkeys hmem]

theorem flatMap_push_perm (groups : Groups α) (id : String) (a : α) :
    ((groups.push id a).flatMap Prod.snd).Perm (groups.flatMap Prod.snd ++ [a]) := by
  fun_induction push groups id a with
  | case1 => simp
  | case2 as rest =>
    simp only [List.flatMap_cons, List.append_assoc]
    apply List.Perm.append_left
    exact List.perm_append_comm
  | case3 name as rest hne ih =>
    simp only [List.flatMap_cons, List.append_assoc]
    exact ih.append_left as

/-- Groups in which nothing occurs twice, neither in one list nor in two. -/
structure Distinct (groups : Groups α) : Prop where
  nodup : ∀ id, ((groups.get? id).getD []).Nodup
  disjoint : ∀ x y, x ≠ y → ((groups.get? x).getD []).Disjoint ((groups.get? y).getD [])

theorem get?_sublist (groups : Groups α) (id : String) :
    ((groups.get? id).getD []).Sublist (groups.flatMap Prod.snd) := by
  induction groups with
  | nil => exact List.Sublist.refl _
  | cons group rest ih =>
    obtain ⟨key, as⟩ := group
    rw [get?_cons, List.flatMap_cons]
    split_ifs
    · exact List.sublist_append_left as _
    · exact ih.trans (List.sublist_append_right as _)

theorem distinct_of_nodup {groups : Groups α} (h : (groups.flatMap Prod.snd).Nodup) :
    groups.Distinct := by
  constructor
  · intro id
    exact (get?_sublist groups id).nodup h
  · induction groups with
    | nil => simp
    | cons group rest ih =>
      obtain ⟨key, as⟩ := group
      obtain ⟨-, hrest, hdisjoint⟩ := List.nodup_append'.mp (List.flatMap_cons ▸ h)
      intro x y hxy
      rw [get?_cons, get?_cons]
      split_ifs with hx hy hy
      · exact (hxy (hx.trans hy.symm)).elim
      · exact List.disjoint_of_subset_right (get?_sublist rest y).subset hdisjoint
      · exact (List.disjoint_of_subset_right (get?_sublist rest x).subset hdisjoint).symm
      · exact ih hrest x y hxy

end Groups

variable (policy : Policy) (nodes : List NodeSpan)

/-- The comments with the given owner, or with none. -/
def ownedBy (cs : List Comment) (id : Option String) : List Comment :=
  cs.filter fun c => owner policy nodes c = id

/-- The owners of comments, each where it comes first. -/
def owners (cs : List Comment) : List String := (cs.filterMap (owner policy nodes)).eraseDups

def parted (cs : List Comment) : Result :=
  { groups := (owners policy nodes cs).map fun id => (id, ownedBy policy nodes cs (some id))
    unclaimed := ownedBy policy nodes cs none }

theorem ownedBy_concat (cs : List Comment) (c : Comment) (id : Option String) :
    ownedBy policy nodes (cs ++ [c]) id =
      if owner policy nodes c = id then ownedBy policy nodes cs id ++ [c]
      else ownedBy policy nodes cs id := by
  by_cases h : owner policy nodes c = id <;> simp [ownedBy, h]

variable {policy nodes}

theorem mem_owners {cs : List Comment} {id : String} :
    id ∈ owners policy nodes cs ↔ ∃ c ∈ cs, owner policy nodes c = some id := by
  simp [owners]

theorem nodup_owners (cs : List Comment) : (owners policy nodes cs).Nodup := nodup_eraseDups _

theorem owners_concat_of_none {cs : List Comment} {c : Comment} (h : owner policy nodes c = none) :
    owners policy nodes (cs ++ [c]) = owners policy nodes cs := by
  simp [owners, h]

theorem owners_concat_of_some {cs : List Comment} {c : Comment} {id : String}
    (h : owner policy nodes c = some id) :
    owners policy nodes (cs ++ [c]) =
      if id ∈ owners policy nodes cs then owners policy nodes cs
      else owners policy nodes cs ++ [id] := by
  simp [owners, h, eraseDups_concat]

theorem push_parted {cs : List Comment} {c : Comment} {id : String}
    (h : owner policy nodes c = some id) :
    (parted policy nodes cs).groups.push id c = (parted policy nodes (cs ++ [c])).groups := by
  have hlist : ∀ key, ownedBy policy nodes (cs ++ [c]) (some key) =
      if key = id then ownedBy policy nodes cs (some key) ++ [c]
      else ownedBy policy nodes cs (some key) := by
    intro key
    simp [ownedBy_concat, h, eq_comm]
  simp only [parted, owners_concat_of_some h]
  split_ifs with hmem
  · rw [Groups.push_of_mem (nodup_owners cs) hmem]
    apply List.map_congr_left
    intro key _
    rw [hlist]
  · -- No comment before this one has its owner, so its list begins here.
    have hnil : ownedBy policy nodes cs (some id) = [] := by
      simpa [ownedBy, mem_owners] using hmem
    have hold : ∀ key ∈ owners policy nodes cs,
        (key, ownedBy policy nodes (cs ++ [c]) (some key)) =
          (key, ownedBy policy nodes cs (some key)) := by
      intro key hkey
      rw [hlist, if_neg]
      rintro rfl
      exact hmem hkey
    rw [Groups.push_of_notMem hmem, List.map_append, List.map_congr_left hold, List.map_singleton,
      hlist, if_pos rfl, hnil, List.nil_append]

/-- One more comment is added to comments that are parted by their owners. -/
theorem add_parted (cs : List Comment) (c : Comment) :
    (parted policy nodes cs).add policy nodes c = parted policy nodes (cs ++ [c]) := by
  cases h : owner policy nodes c with
  | none => simp [Result.add, parted, h, owners_concat_of_none h, ownedBy_concat]
  | some id =>
    simp only [Result.add, h, push_parted h]
    simp [parted, ownedBy_concat, h]

theorem associate_concat (cs : List Comment) (c : Comment) :
    associate policy nodes (cs ++ [c]) = (associate policy nodes cs).add policy nodes c := by
  rw [associate, associate, List.foldl_concat]

theorem associate_eq_parted (cs : List Comment) :
    associate policy nodes cs = parted policy nodes cs := by
  induction cs using List.reverseRecOn with
  | nil => rfl
  | append_singleton cs c ih => rw [associate_concat, ih, add_parted]

variable (policy nodes) in
theorem get?_associate (cs : List Comment) (id : String) :
    ((associate policy nodes cs).groups.get? id).getD [] =
      cs.filter fun c => owner policy nodes c = some id := by
  rw [associate_eq_parted, parted, Groups.get?_map]
  split_ifs with hmem
  · rfl
  · symm
    simpa [mem_owners] using hmem

theorem add_perm (r : Result) (c : Comment) :
    ((r.add policy nodes c).groups.flatMap Prod.snd ++ (r.add policy nodes c).unclaimed).Perm
      (r.groups.flatMap Prod.snd ++ r.unclaimed ++ [c]) := by
  cases h : owner policy nodes c with
  | none => simp [Result.add, h]
  | some id =>
    simp only [Result.add, h]
    apply ((Groups.flatMap_push_perm r.groups id c).append_right r.unclaimed).trans
    rw [List.append_assoc, List.append_assoc]
    exact List.perm_append_comm.append_left _

theorem associate_perm (cs : List Comment) :
    ((associate policy nodes cs).groups.flatMap Prod.snd ++
      (associate policy nodes cs).unclaimed).Perm cs := by
  induction cs using List.reverseRecOn with
  | nil => exact List.Perm.nil
  | append_singleton cs c ih =>
    rw [associate_concat]
    exact (add_perm _ c).trans (ih.append_right [c])

theorem distinct_associate {cs : List Comment} (h : cs.Nodup) :
    (associate policy nodes cs).groups.Distinct := by
  have hall : ((associate policy nodes cs).groups.flatMap Prod.snd ++
      (associate policy nodes cs).unclaimed).Nodup := (associate_perm cs).nodup_iff.mpr h
  exact Groups.distinct_of_nodup hall.of_append_left

/-- A result parts comments by their owners: each identifier has the comments that it owns, in their
order, the comments without an owner stand apart, and together these are all the comments. The
identifiers are those of nodes, in the order of their first comments, each with a list that is not
empty. -/
structure PartsByOwner (policy : Policy) (nodes : List NodeSpan) (cs : List Comment) (r : Result) :
    Prop where
  list_eq : ∀ id, (r.groups.get? id).getD [] = cs.filter fun c => owner policy nodes c = some id
  unclaimed_eq : r.unclaimed = cs.filter fun c => owner policy nodes c = none
  keys_eq : r.groups.map Prod.fst = (cs.filterMap (owner policy nodes)).eraseDups
  keys_nodup : (r.groups.map Prod.fst).Nodup
  key_mem : ∀ group ∈ r.groups, ∃ n ∈ nodes, n.identifier = group.1
  list_ne_nil : ∀ group ∈ r.groups, group.2 ≠ []
  perm : (r.groups.flatMap Prod.snd ++ r.unclaimed).Perm cs

/-- Matching parts the comments by their owners, whatever the nodes are. -/
theorem associate_partsByOwner (policy : Policy) (nodes : List NodeSpan) (cs : List Comment) :
    PartsByOwner policy nodes cs (associate policy nodes cs) := by
  have hkeys : (associate policy nodes cs).groups.map Prod.fst = owners policy nodes cs := by
    simp [associate_eq_parted, parted, Function.comp_def]
  have hgroup : ∀ group ∈ (associate policy nodes cs).groups, ∃ c ∈ cs,
      owner policy nodes c = some group.1 ∧ group.2 = ownedBy policy nodes cs (some group.1) := by
    intro group h
    rw [associate_eq_parted] at h
    obtain ⟨id, hid, rfl⟩ := List.mem_map.mp h
    obtain ⟨c, hc, howner⟩ := mem_owners.mp hid
    exact ⟨c, hc, howner, rfl⟩
  constructor
  · intro id
    exact get?_associate policy nodes cs id
  · rw [associate_eq_parted]
    rfl
  · exact hkeys
  · rw [hkeys]
    exact nodup_owners cs
  · intro group h
    obtain ⟨c, -, howner, -⟩ := hgroup group h
    exact exists_mem_of_owner howner
  · intro group h
    obtain ⟨c, hc, howner, hlist⟩ := hgroup group h
    rw [hlist]
    apply List.ne_nil_of_mem (a := c)
    simp [ownedBy, hc, howner]
  · exact associate_perm cs

end Association
end Marginalia
