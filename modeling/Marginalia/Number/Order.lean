import Marginalia.Number.Basic

/-!
# Order of numbers

Numbers are ordered by their values, with the infinities at the two ends.
Finite numbers are compared by multiplying out their denominators. The order is
total: of two different numbers one is less.
-/

namespace Marginalia
namespace Number

def isBelow : Number → Number → Bool
  | .infinite a, .infinite b => a && !b
  | .infinite a, _ => a
  | _, .infinite b => !b
  | x, y => decide (x.numerator * twoTo y.exponent < y.numerator * twoTo x.exponent)

instance : LT Number := ⟨fun x y => isBelow x y = true⟩

instance : LE Number := ⟨fun x y => ¬ y < x⟩

instance (x y : Number) : Decidable (x < y) :=
  inferInstanceAs (Decidable (isBelow x y = true))

instance (x y : Number) : Decidable (x ≤ y) :=
  inferInstanceAs (Decidable (¬ y < x))

theorem lt_iff_isBelow (x y : Number) : x < y ↔ isBelow x y = true := Iff.rfl

theorem le_iff_not_lt (x y : Number) : x ≤ y ↔ ¬ y < x := Iff.rfl

@[simp] theorem infinite_lt_infinite (a b : Bool) :
    Number.infinite a < Number.infinite b ↔ a = true ∧ b = false := by
  simp [lt_iff_isBelow, isBelow]

@[simp] theorem infinite_lt_int (a : Bool) (n : Int) :
    Number.infinite a < Number.int n ↔ a = true := Iff.rfl

@[simp] theorem infinite_lt_fraction (a : Bool) (h : Int) (d : Nat) :
    Number.infinite a < Number.fraction h d ↔ a = true := Iff.rfl

@[simp] theorem int_lt_infinite (n : Int) (b : Bool) :
    Number.int n < Number.infinite b ↔ b = false := by
  simp [lt_iff_isBelow, isBelow]

@[simp] theorem fraction_lt_infinite (h : Int) (d : Nat) (b : Bool) :
    Number.fraction h d < Number.infinite b ↔ b = false := by
  simp [lt_iff_isBelow, isBelow]

theorem lt_iff_of_finite {x y : Number} (hx : x.isFinite) (hy : y.isFinite) :
    x < y ↔ x.numerator * twoTo y.exponent < y.numerator * twoTo x.exponent := by
  cases x <;> cases y <;> first | exact decide_eq_true_iff | simp [isFinite] at hx hy

@[simp] theorem int_lt_int (a b : Int) : Number.int a < Number.int b ↔ a < b := by
  rw [lt_iff_of_finite rfl rfl]
  simp [numerator, exponent, twoTo]

@[simp] theorem int_le_int (a b : Int) : Number.int a ≤ Number.int b ↔ a ≤ b := by
  rw [le_iff_not_lt, int_lt_int]
  omega

theorem twoTo_pos (n : Nat) : (0 : Int) < twoTo n :=
  Int.natCast_pos.2 (Nat.pow_pos (by decide))

theorem twoTo_succ (n : Nat) : (twoTo (n + 1) : Int) = 2 * twoTo n := by
  simp only [twoTo, Nat.pow_eq, Nat.pow_succ]
  omega

theorem twoTo_add (m n : Nat) : (twoTo (m + n) : Int) = twoTo m * twoTo n := by
  simp only [twoTo, Nat.pow_eq, Nat.pow_add]
  exact Int.natCast_mul _ _

theorem lt_irrefl (x : Number) : ¬ x < x := by
  cases x with
  | infinite a => cases a <;> simp [infinite_lt_infinite]
  | int n => simp
  | fraction h d =>
    rw [lt_iff_of_finite rfl rfl]
    exact Int.lt_irrefl _

/-- Fractions with positive denominators `p`, `q` and `r` in order. -/
theorem cross_lt_trans {a b c p q r : Int} (hp : 0 < p) (hq : 0 < q) (hr : 0 < r)
    (h : a * q < b * p) (k : b * r < c * q) : a * r < c * p := by
  have h' : a * r * q < b * r * p := by
    have := Int.mul_lt_mul_of_pos_right h hr
    rwa [Int.mul_right_comm, Int.mul_right_comm b] at this
  have k' : b * r * p < c * p * q := by
    have := Int.mul_lt_mul_of_pos_right k hp
    rwa [Int.mul_right_comm c] at this
  exact Int.lt_of_mul_lt_mul_right (Int.lt_trans h' k') (Int.le_of_lt hq)

theorem lt_trans {x y z : Number} (h : x < y) (k : y < z) : x < z := by
  by_cases finite : x.isFinite ∧ y.isFinite ∧ z.isFinite
  · obtain ⟨hx, hy, hz⟩ := finite
    rw [lt_iff_of_finite hx hy] at h
    rw [lt_iff_of_finite hy hz] at k
    rw [lt_iff_of_finite hx hz]
    exact cross_lt_trans (twoTo_pos _) (twoTo_pos _) (twoTo_pos _) h k
  · cases x <;> cases y <;> cases z <;> simp_all [isFinite]

/-- Equal fractions with odd numerators have denominators of one size. -/
theorem depth_le {h g : Int} {d e : Nat}
    (eq : (2 * h + 1) * (twoTo (e + 1) : Int) = (2 * g + 1) * twoTo (d + 1)) : d ≤ e := by
  apply Nat.le_of_not_lt
  intro less
  obtain ⟨k, rfl⟩ : ∃ k, d = e + 1 + k := ⟨d - (e + 1), by omega⟩
  rw [show e + 1 + k + 1 = (k + 1) + (e + 1) by omega, twoTo_add (k + 1), ← Int.mul_assoc] at eq
  have odd := Int.eq_of_mul_eq_mul_right (Int.ne_of_gt (twoTo_pos (e + 1))) eq
  rw [twoTo_succ, Int.mul_left_comm] at odd
  omega

/-- An odd number over a power of two is no integer. -/
theorem int_ne_fraction {n h : Int} {d : Nat} (eq : n * (twoTo (d + 1) : Int) = 2 * h + 1) :
    False := by
  rw [twoTo_succ, Int.mul_left_comm] at eq
  omega

theorem eq_of_not_lt {x y : Number} (h : ¬ x < y) (k : ¬ y < x) : x = y := by
  by_cases finite : x.isFinite ∧ y.isFinite
  · rw [lt_iff_of_finite finite.1 finite.2] at h
    rw [lt_iff_of_finite finite.2 finite.1] at k
    have eq := Int.le_antisymm (Int.not_lt.1 k) (Int.not_lt.1 h)
    cases x <;> cases y <;> simp only [numerator, exponent, isFinite] at eq finite
    case int.int => simpa [twoTo] using eq
    case int.fraction => exact (int_ne_fraction (by simpa [twoTo] using eq)).elim
    case fraction.int => exact (int_ne_fraction (by simpa [twoTo] using eq.symm)).elim
    case fraction.fraction =>
      obtain rfl := Nat.le_antisymm (depth_le eq) (depth_le eq.symm)
      have := Int.eq_of_mul_eq_mul_right (Int.ne_of_gt (twoTo_pos _)) eq
      simp only [fraction.injEq, and_true]
      omega
    all_goals simp at finite
  · cases x <;> cases y <;> simp_all [isFinite]
    exact Bool.eq_iff_iff.2 ⟨h, k⟩

theorem lt_trichotomy (x y : Number) : x < y ∨ x = y ∨ y < x := by
  by_cases h : x < y
  · exact .inl h
  · by_cases k : y < x
    · exact .inr (.inr k)
    · exact .inr (.inl (eq_of_not_lt h k))

end Number
end Marginalia
