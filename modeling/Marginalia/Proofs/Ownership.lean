import Marginalia.Association
import Marginalia.Proofs.Slots

/-!
# Owners

Whatever the policy, the owner of a comment is one of the nodes that were
offered. Among the nodes of an outline it is a slot of the outline.
-/

namespace Marginalia
namespace Association

open Outline

variable {nodes : List NodeSpan} {c : Comment} {n : NodeSpan}

theorem foldl_first_mem (before : NodeSpan → NodeSpan → Bool) (best : NodeSpan)
    (ns : List NodeSpan) :
    ns.foldl (fun best m => if before m best then m else best) best ∈ best :: ns := by
  induction ns generalizing best with
  | nil => exact List.mem_singleton_self best
  | cons m ns ih =>
    rw [List.foldl_cons]
    have hm := ih (if before m best then m else best)
    rcases List.mem_cons.mp hm with h | h
    · rw [h]
      split_ifs <;> simp
    · simp [h]

theorem mem_of_first {before : NodeSpan → NodeSpan → Bool} {ns : List NodeSpan}
    (h : first before ns = some n) : n ∈ ns := by
  cases ns with
  | nil => simp [first] at h
  | cons m ns =>
    rw [← Option.some.inj h]
    exact foldl_first_mem before m ns

theorem mem_of_conservativeOwner (h : conservativeOwner nodes c = some n) : n ∈ nodes := by
  rcases Option.or_eq_some_iff.mp h with h | ⟨-, h⟩
  · exact List.mem_of_find?_eq_some h
  · exact List.mem_of_find?_eq_some h

theorem mem_of_nearestOwner (h : nearestOwner nodes c = some n) : n ∈ nodes := by
  rcases Option.or_eq_some_iff.mp h with h | ⟨-, h⟩
  · exact List.mem_of_mem_filter (mem_of_first h)
  · rcases Option.or_eq_some_iff.mp h with h | ⟨-, h⟩
    · exact List.mem_of_mem_filter (mem_of_first h)
    · exact List.mem_of_mem_filter (mem_of_first h)

theorem exists_mem_of_owner {policy : Policy} {id : String} (h : owner policy nodes c = some id) :
    ∃ n ∈ nodes, n.identifier = id := by
  obtain ⟨n, hn, hid⟩ := Option.map_eq_some_iff.mp h
  cases policy with
  | conservative => exact ⟨n, mem_of_conservativeOwner hn, hid⟩
  | nearest => exact ⟨n, mem_of_nearestOwner hn, hid⟩

theorem exists_slot_of_owner {policy : Policy} {f : Outline} {id : String}
    (h : owner policy f.nodeSpans c = some id) :
    ∃ p : Slot, p.identifier? = some id ∧ (f.spanAt p).isSome := by
  obtain ⟨n, hn, rfl⟩ := exists_mem_of_owner h
  obtain ⟨p, hid, hs⟩ := mem_nodeSpans.mp hn
  exact ⟨p, hid, by rw [hs]; rfl⟩

theorem spanAt_isSome_of_owner {policy : Policy} {f : Outline} {p : Slot} (hp : p ≠ .file)
    (h : owner policy f.nodeSpans c = p.identifier?) : (f.spanAt p).isSome := by
  cases hid : p.identifier? with
  | none => exact (hp (Slot.identifier?_injective (hid.trans rfl))).elim
  | some id =>
    obtain ⟨q, hq, hs⟩ := exists_slot_of_owner (h.trans hid)
    rwa [Slot.identifier?_injective (hid.trans hq.symm)]

end Association
end Marginalia
