import Mathlib.Algebra.Group.Nat.Defs
import Mathlib.Order.Bounds.Defs
import Mathlib.Tactic.Ring

/-!
# Rounding up to a multiple

`roundUp x a` is the least multiple of `a` that is at least `x`. On a machine whose
words have `w` bits and for a power of two, the multiple is computed by masking: the
mask `2 ^ k - 1` is added and its bits are cleared again. The sum is taken modulo
`2 ^ w`, and so is the result (`mod_div_mul_two_pow`): a number close to the largest
is rounded to zero.
-/

namespace Alignment

/-- **The least multiple of `a` at or above `x`.** -/
def roundUp (x a : ℕ) : ℕ := (x + (a - 1)) / a * a

variable {x a k w : ℕ}

theorem dvd_roundUp (x a : ℕ) : a ∣ roundUp x a := Nat.dvd_mul_left a _

theorem le_roundUp (ha : 0 < a) : x ≤ roundUp x a := by
  have hdiv := Nat.div_add_mod (x + (a - 1)) a
  have hmod := Nat.mod_lt (x + (a - 1)) ha
  rw [roundUp, Nat.mul_comm]
  omega

theorem roundUp_isLeast (ha : 0 < a) : IsLeast {m | a ∣ m ∧ x ≤ m} (roundUp x a) := by
  refine ⟨⟨dvd_roundUp x a, le_roundUp ha⟩, ?_⟩
  rintro m ⟨⟨q, rfl⟩, hle⟩
  have hlt : (x + (a - 1)) / a < q + 1 := by
    rw [Nat.div_lt_iff_lt_mul ha, Nat.add_mul, Nat.one_mul, Nat.mul_comm q]
    omega
  rw [roundUp, Nat.mul_comm]
  exact Nat.mul_le_mul_left a (Nat.le_of_lt_succ hlt)

/-- A number is not rounded past a multiple. -/
theorem roundUp_le {m : ℕ} (ha : 0 < a) (hdvd : a ∣ m) (hle : x ≤ m) : roundUp x a ≤ m :=
  (roundUp_isLeast ha).2 ⟨hdvd, hle⟩

/-- A multiple is not rounded. -/
theorem roundUp_of_dvd (ha : 0 < a) (hdvd : a ∣ x) : roundUp x a = x :=
  Nat.le_antisymm (roundUp_le ha hdvd (Nat.le_refl _)) (le_roundUp ha)

theorem roundUp_mono {y : ℕ} (ha : 0 < a) (hle : x ≤ y) : roundUp x a ≤ roundUp y a :=
  roundUp_le ha (dvd_roundUp y a) (Nat.le_trans hle (le_roundUp ha))

/-- Rounding moves along by a multiple. -/
theorem roundUp_add_of_dvd {c : ℕ} (ha : 0 < a) (hdvd : a ∣ c) :
    roundUp (x + c) a = roundUp x a + c := by
  obtain ⟨d, rfl⟩ := hdvd
  rw [roundUp, roundUp, Nat.add_right_comm, Nat.add_mul_div_left _ _ ha, Nat.add_mul,
    Nat.mul_comm d]

/-- **Rounding after a reduction**, modulo a multiple of the step. -/
theorem roundUp_mod {c : ℕ} (ha : 0 < a) (hdvd : a ∣ c) (x : ℕ) :
    roundUp (x % c) a % c = roundUp x a % c := by
  have hround : roundUp x a = roundUp (x % c) a + c * (x / c) := by
    rw [← roundUp_add_of_dvd ha (Dvd.dvd.mul_right hdvd _), Nat.mod_add_div]
  rw [hround, Nat.add_mul_mod_self_left]

/-- A number is rounded by less than a step. -/
theorem roundUp_lt (ha : 0 < a) : roundUp x a < x + a := by
  have hle := Nat.div_mul_le_self (x + (a - 1)) a
  rw [roundUp]
  omega

/-- One less than a multiple of `a`. -/
theorem exists_of_dvd_succ {m : ℕ} (ha : 0 < a) (hm : a ∣ m + 1) : ∃ c, m = a - 1 + c * a := by
  obtain ⟨_ | c, hc⟩ := hm
  · cases hc
  · refine ⟨c, ?_⟩
    rw [Nat.mul_succ, Nat.mul_comm] at hc
    omega

/-- **Rounding first does not carry** into the multiples of `a`, where one less than a multiple
is added. -/
theorem roundUp_add_div {m : ℕ} (ha : 0 < a) (hm : a ∣ m + 1) :
    (roundUp x a + m) / a = (x + m) / a := by
  obtain ⟨c, rfl⟩ := exists_of_dvd_succ ha hm
  have hlow : (a - 1) / a = 0 := Nat.div_eq_of_lt (Nat.sub_one_lt_of_lt ha)
  calc (roundUp x a + (a - 1 + c * a)) / a
      = (a - 1 + ((x + (a - 1)) / a + c) * a) / a := by
        rw [roundUp, Nat.add_left_comm, Nat.add_mul]
    _ = (x + (a - 1)) / a + c := by
        rw [Nat.add_mul_div_right _ _ ha, hlow, Nat.zero_add]
    _ = (x + (a - 1 + c * a)) / a := by
        rw [← Nat.add_assoc, Nat.add_mul_div_right _ _ ha]

/-! ## Masks -/

/-- **Clearing the low bits** of a word, by the complement of the mask. -/
theorem and_compl_mask (hk : k ≤ w) (hx : x < 2 ^ w) :
    x &&& (2 ^ w - 1 - (2 ^ k - 1)) = x / 2 ^ k * 2 ^ k := by
  have hpos := Nat.two_pow_pos k
  have hle : 2 ^ k ≤ 2 ^ w := Nat.pow_le_pow_right Nat.two_pos hk
  have hmask : 2 ^ w - 1 - (2 ^ k - 1) = 2 ^ w - (2 ^ k - 1 + 1) := by omega
  refine Nat.eq_of_testBit_eq (fun i => ?_)
  rw [Nat.testBit_and, hmask, Nat.testBit_two_pow_sub_succ (by omega),
    Nat.testBit_two_pow_sub_one, Nat.testBit_mul_two_pow, Nat.testBit_div_two_pow]
  by_cases hi : k ≤ i
  · rw [Nat.sub_add_cancel hi]
    by_cases hw : i < w
    · simp [hi, hw, Nat.not_lt.mpr hi]
    · have hhigh : x < 2 ^ i :=
        Nat.lt_of_lt_of_le hx (Nat.pow_le_pow_right Nat.two_pos (Nat.not_lt.mp hw))
      simp [Nat.testBit_lt_two_pow hhigh]
  · simp [Nat.not_le.mp hi, hi]

/-- **A mask that covers the low bits does not see them.** -/
theorem and_compl_congr {y m : ℕ} (hcovers : 2 ^ k ∣ m + 1) (hm : m < 2 ^ w)
    (h : x / 2 ^ k = y / 2 ^ k) : x &&& (2 ^ w - 1 - m) = y &&& (2 ^ w - 1 - m) := by
  have hmask : 2 ^ w - 1 - m = 2 ^ w - (m + 1) := by omega
  have hlow : m % 2 ^ k = 2 ^ k - 1 := by
    obtain ⟨c, rfl⟩ := exists_of_dvd_succ (Nat.two_pow_pos k) hcovers
    rw [Nat.add_mul_mod_self_right, Nat.mod_eq_of_lt (Nat.sub_one_lt_of_lt (Nat.two_pow_pos k))]
  refine Nat.eq_of_testBit_eq (fun i => ?_)
  rw [Nat.testBit_and, Nat.testBit_and, hmask, Nat.testBit_two_pow_sub_succ hm]
  by_cases hi : k ≤ i
  · -- a bit of the high part
    have hhigh : ∀ z : ℕ, z.testBit i = (z / 2 ^ k).testBit (i - k) := fun z => by
      rw [Nat.testBit_div_two_pow, Nat.sub_add_cancel hi]
    rw [hhigh x, hhigh y, h]
  · have hset : m.testBit i = true := by
      have hbit := Nat.testBit_mod_two_pow m k i
      rw [hlow, Nat.testBit_two_pow_sub_one] at hbit
      simpa [Nat.not_le.mp hi] using hbit
    simp [hset]

/-- The high part of a word. -/
theorem mod_two_pow_div (hk : k ≤ w) (x : ℕ) : x % 2 ^ w / 2 ^ k = x / 2 ^ k % 2 ^ (w - k) := by
  have hsplit : 2 ^ w = 2 ^ k * 2 ^ (w - k) := by rw [← Nat.pow_add, Nat.add_sub_cancel' hk]
  rw [hsplit, Nat.mod_mul_right_div_self]

/-- Rounding down commutes with the reduction to a word. -/
theorem mod_div_mul_two_pow (hk : k ≤ w) (x : ℕ) :
    x % 2 ^ w / 2 ^ k * 2 ^ k = x / 2 ^ k * 2 ^ k % 2 ^ w := by
  have hsplit : 2 ^ w = 2 ^ (w - k) * 2 ^ k := by rw [← Nat.pow_add, Nat.sub_add_cancel hk]
  rw [mod_two_pow_div hk, hsplit, Nat.mul_mod_mul_right]

end Alignment
