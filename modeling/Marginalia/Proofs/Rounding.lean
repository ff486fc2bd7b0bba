import Marginalia.Number.Order
import Mathlib.Tactic

/-!
# Rounding keeps the order

Differences of coordinates are rounded to the nearest number of the format. An
integer of more than 53 bits loses its last bits, and one that is too large
becomes infinite, so two integers may be rounded to one number. But the greater
one is never rounded to the lesser number.
-/

namespace Marginalia
namespace Number

theorem twoTo_lt_twoTo {m n : Nat} (h : m < n) : twoTo m < twoTo n :=
  Nat.pow_lt_pow_right Nat.one_lt_two h

theorem div_le_roundDiv (num den : Nat) : num / den ≤ roundDiv num den := by
  unfold roundDiv
  dsimp only
  split_ifs <;> omega

theorem roundDiv_le (num den : Nat) : roundDiv num den ≤ num / den + 1 := by
  unfold roundDiv
  dsimp only
  split_ifs <;> omega

theorem roundDiv_mono {m n : Nat} (h : m ≤ n) (den : Nat) : roundDiv m den ≤ roundDiv n den := by
  rcases Nat.lt_or_eq_of_le (Nat.div_le_div_right h (c := den)) with hlt | heq
  · calc
      roundDiv m den ≤ m / den + 1 := roundDiv_le m den
      _ ≤ n / den := hlt
      _ ≤ roundDiv n den := div_le_roundDiv n den
  · -- With one quotient the remainders are in order, and so are the decisions to round up.
    have hmod : m % den ≤ n % den := by
      have hm := Nat.div_add_mod m den
      have hn := Nat.div_add_mod n den
      rw [heq] at hm
      omega
    unfold roundDiv
    dsimp only
    rw [heq]
    split_ifs <;> omega

/-- The value of the last bit that the format keeps of an integer of more than 53 bits. -/
def lastPlace (n : Nat) : Nat := twoTo (n.log2 - 52)

theorem lastPlace_pos (n : Nat) : 0 < lastPlace n := Nat.pow_pos (by decide)

/-- The integer nearest to a natural number among those with 53 significant bits. -/
def roundNat (n : Nat) : Nat :=
  if n ≤ twoTo 53 then n else roundDiv n (lastPlace n) * lastPlace n

theorem roundNat_of_le {n : Nat} (h : n ≤ twoTo 53) : roundNat n = n := if_pos h

section Large

variable {n : Nat} (h : twoTo 53 < n)
include h

theorem log2_ge : 53 ≤ n.log2 := (Nat.le_log2 (by omega)).mpr h.le

theorem two_pow_mul_lastPlace (k : Nat) : 2 ^ (52 + k) * lastPlace n = 2 ^ (n.log2 + k) := by
  have hlog := log2_ge h
  change 2 ^ (52 + k) * 2 ^ (n.log2 - 52) = _
  rw [← Nat.pow_add]
  congr 1
  omega

theorem two_pow_log2_le_roundNat : 2 ^ n.log2 ≤ roundNat n := by
  have hquotient : 2 ^ 52 ≤ n / lastPlace n := by
    rw [Nat.le_div_iff_mul_le (lastPlace_pos n), two_pow_mul_lastPlace h 0]
    exact Nat.log2_self_le (by omega)
  rw [roundNat, if_neg (by omega), ← Nat.add_zero n.log2, ← two_pow_mul_lastPlace h 0]
  exact Nat.mul_le_mul_right _ (hquotient.trans (div_le_roundDiv n _))

theorem roundNat_le_two_pow : roundNat n ≤ 2 ^ (n.log2 + 1) := by
  have hquotient : n / lastPlace n < 2 ^ 53 := by
    rw [Nat.div_lt_iff_lt_mul (lastPlace_pos n), two_pow_mul_lastPlace h 1]
    exact Nat.lt_log2_self
  rw [roundNat, if_neg (by omega), ← two_pow_mul_lastPlace h 1]
  exact Nat.mul_le_mul_right _ ((roundDiv_le n _).trans hquotient)

end Large

theorem roundNat_mono {m n : Nat} (h : m ≤ n) : roundNat m ≤ roundNat n := by
  by_cases hn : n ≤ twoTo 53
  · rwa [roundNat_of_le hn, roundNat_of_le (h.trans hn)]
  · have hlarge : twoTo 53 < n := by omega
    by_cases hm : m ≤ twoTo 53
    · calc
        roundNat m = m := roundNat_of_le hm
        _ ≤ 2 ^ 53 := hm
        _ ≤ 2 ^ n.log2 := Nat.pow_le_pow_right (by decide) (log2_ge hlarge)
        _ ≤ roundNat n := two_pow_log2_le_roundNat hlarge
    · have hlog : m.log2 ≤ n.log2 :=
        (Nat.le_log2 (by omega)).mpr ((Nat.log2_self_le (by omega)).trans h)
      rcases Nat.lt_or_eq_of_le hlog with hlt | heq
      · calc
          roundNat m ≤ 2 ^ (m.log2 + 1) := roundNat_le_two_pow (by omega)
          _ ≤ 2 ^ n.log2 := Nat.pow_le_pow_right (by decide) hlt
          _ ≤ roundNat n := two_pow_log2_le_roundNat hlarge
      · rw [roundNat, if_neg hm, roundNat, if_neg hn, lastPlace, heq]
        exact Nat.mul_le_mul_right _ (roundDiv_mono h _)

/-- The number with a sign and a size, infinite if the size is too large for the format. -/
def ofSize (negative : Bool) (size : Nat) : Number :=
  if twoTo 1024 ≤ size then .infinite negative else .int (withSign negative size)

theorem leadingBit_one {n : Nat} (h : n ≠ 0) : leadingBit n 1 = n.log2 := by
  have hle : twoTo n.log2 ≤ n := Nat.log2_self_le h
  have hone : Nat.log2 1 = 0 := rfl
  simp [leadingBit, hone, hle]

theorem ofInt_eq_ofSize (n : Int) : ofInt n = ofSize (decide (n < 0)) (roundNat n.natAbs) := by
  rw [ofInt]
  split_ifs with hsmall
  · have hlarge : twoTo 53 < twoTo 1024 := twoTo_lt_twoTo (by decide)
    rw [roundNat_of_le hsmall, ofSize, if_neg (by omega), withSign]
    congr 1
    split_ifs with hneg <;> simp only [decide_eq_true_eq] at hneg <;> omega
  · have hlog := log2_ge (Nat.not_le.mp hsmall)
    have hlast : lastBit (leadingBit n.natAbs 1) = (n.natAbs.log2 - 52 : Nat) := by
      rw [leadingBit_one (by omega), lastBit]
      omega
    rw [ofQuotient, if_neg (by omega)]
    simp only [hlast, Int.natCast_nonneg, if_true, Int.toNat_natCast, Nat.one_mul]
    rw [ofSize, roundNat, if_neg hsmall]
    rfl

theorem ofSize_le_ofSize {m n : Nat} (h : m ≤ n) : ofSize false m ≤ ofSize false n := by
  unfold ofSize
  split_ifs with hm hn hn
  · simp [le_iff_not_lt]
  · exact (hn (hm.trans h)).elim
  · simp [le_iff_not_lt]
  · simpa [withSign] using h

theorem ofSize_le_ofSize_of_negative {m n : Nat} (h : m ≤ n) : ofSize true n ≤ ofSize true m := by
  unfold ofSize
  split_ifs with hn hm hm
  · simp [le_iff_not_lt]
  · simp [le_iff_not_lt]
  · exact (hn (hm.trans h)).elim
  · simpa [withSign] using h

theorem ofSize_true_le_ofSize_false (m n : Nat) : ofSize true m ≤ ofSize false n := by
  unfold ofSize
  split_ifs
  · simp [le_iff_not_lt]
  · simp [le_iff_not_lt]
  · simp [le_iff_not_lt]
  · rw [int_le_int, withSign, withSign]
    exact (Int.neg_nonpos_of_nonneg (Int.natCast_nonneg m)).trans (Int.natCast_nonneg n)

/-- Rounding keeps the order of integers, though it may make two of them equal. -/
theorem ofInt_le_ofInt {a b : Int} (h : a ≤ b) : ofInt a ≤ ofInt b := by
  rw [ofInt_eq_ofSize, ofInt_eq_ofSize]
  by_cases ha : a < 0 <;> by_cases hb : b < 0 <;> simp only [ha, hb, decide_true, decide_false]
  · exact ofSize_le_ofSize_of_negative (roundNat_mono (by omega))
  · exact ofSize_true_le_ofSize_false _ _
  · omega
  · exact ofSize_le_ofSize (roundNat_mono (by omega))

end Number
end Marginalia
