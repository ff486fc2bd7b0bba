import Mathlib.Tactic

/-!
# Numbered lists and numerals

Lines and items are walked with a running number. Such a walk is a map over the
list of the elements with their numbers, which are in ascending order. A name that
holds a number spells it in digits, and the digits tell the number.
-/

namespace Marginalia

variable {α β : Type}

theorem mem_flatMap_zipIdx {xs : List α} {g : α × Nat → List β} {b : β} :
    b ∈ xs.zipIdx.flatMap g ↔ ∃ (k : Nat) (a : α), xs[k]? = some a ∧ b ∈ g (a, k) := by
  simp only [List.mem_flatMap, Prod.exists, List.mk_mem_zipIdx_iff_getElem?]
  exact exists_comm

theorem exists_of_mem_zipIdx_one {xs : List α} {p : α × Nat} (h : p ∈ xs.zipIdx 1) :
    ∃ k, p.2 = k + 1 ∧ xs[k]? = some p.1 := by
  obtain ⟨hle, hget⟩ := List.mem_zipIdx_iff_le_and_getElem?_sub.mp h
  exact ⟨p.2 - 1, by omega, hget⟩

theorem flatMap_zipIdx_map {change : α → α} {walk : α × Nat → List β}
    (h : ∀ a k, walk (change a, k) = walk (a, k)) (xs : List α) (n : Nat) :
    ((xs.map change).zipIdx n).flatMap walk = (xs.zipIdx n).flatMap walk := by
  rw [List.zipIdx_map, List.flatMap_map]
  exact congrArg (fun g => (xs.zipIdx n).flatMap g) (funext fun p => h p.1 p.2)

theorem pairwise_zipIdx (xs : List α) (n : Nat) : (xs.zipIdx n).Pairwise fun p q => p.2 < q.2 := by
  have h := List.pairwise_lt_range' (s := n) (n := xs.length)
  rw [← List.zipIdx_map_snd n xs, List.pairwise_map] at h
  exact h

theorem isDigit_of_mem_toDigits {n : Nat} {c : Char} (h : c ∈ Nat.toDigits 10 n) :
    c.isDigit = true :=
  Nat.isDigit_of_mem_toDigits (by decide) (by decide) h

theorem notMem_toDigits {c : Char} (h : c.isDigit = false) (n : Nat) : c ∉ Nat.toDigits 10 n := by
  intro hmem
  rw [isDigit_of_mem_toDigits hmem] at h
  exact Bool.noConfusion h

theorem toDigits_injective : Function.Injective (Nat.toDigits 10) := by
  intro j k h
  calc
    j = Nat.ofDigitChars 10 (Nat.toDigits 10 j) 0 := Nat.ofDigitChars_ten_toDigits.symm
    _ = Nat.ofDigitChars 10 (Nat.toDigits 10 k) 0 := by rw [h]
    _ = k := Nat.ofDigitChars_ten_toDigits

end Marginalia
