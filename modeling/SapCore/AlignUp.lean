import SapCore.Arena

/-!
# What `align_up` computes

`align_up` adds the mask of an alignment to an address and clears the bits of the mask. The sum is
taken in 64 bits. Where it is not cut, the result is the least multiple of the alignment that is
not below the address, and the laws of such a multiple hold (`alignUp_isLeast`).

One of them asks for less than the others. The mask of a multiple of the alignment covers the bits
that the alignment rounds away, so that rounding to the alignment first does not show
(`alignUp_alignUp`). That is so for every multiple, also where a sum is cut, and also where the
multiple is no power of two and what is computed is no rounding.
-/

open Alignment

variable {a b x : UInt64}

/-! ## What is asserted -/

/-- What `align_up` asserts of the alignment. -/
def AlignAsserted (a : UInt64) : Prop := a &&& (a - 1) = 0

/-- **The assertion holds of the powers of two, and of zero.** -/
theorem alignAsserted_iff : AlignAsserted a ↔ a = 0 ∨ IsPowerOfTwo a := by
  unfold AlignAsserted
  by_cases ha : a = 0
  · subst ha
    exact iff_of_true rfl (Or.inl rfl)
  · have hne : a.toNat ≠ 0 := fun h => ha (UInt64.toNat_inj.mp h)
    rw [or_iff_right ha, ← UInt64.toNat_inj, UInt64.toNat_and,
      toNat_sub_one (Nat.pos_of_ne_zero hne)]
    exact Nat.and_sub_one_eq_zero_iff_isPowerOfTwo hne

/-! ## Alignments that divide each other -/

/-- The mask of a multiple of an alignment covers the mask of the alignment. -/
theorem IsPowerOfTwo.dvd_mask_succ (ha : IsPowerOfTwo a) (hdvd : a.toNat ∣ b.toNat) :
    a.toNat ∣ (b - 1).toNat + 1 := by
  by_cases hb : b = 0
  · -- the mask of zero is the whole word
    subst hb
    exact ha.dvd
  · have hpos : 0 < b.toNat := Nat.pos_of_ne_zero (fun h => hb (UInt64.toNat_inj.mp h))
    rw [toNat_sub_one hpos, Nat.sub_add_cancel hpos]
    exact hdvd

/-- **Rounding to an alignment first does not show** in what is computed for its multiples. -/
theorem alignUp_alignUp (ha : IsPowerOfTwo a) (hdvd : a.toNat ∣ b.toNat) (x : UInt64) :
    alignUp (alignUp x a) b = alignUp x b := by
  have hcovers := ha.dvd_mask_succ hdvd
  obtain ⟨k, hle, hk⟩ := ha.exists_le
  -- the two sums differ in bits that the mask of `b` clears
  have hsum : (alignUp x a + (b - 1)).toNat / 2 ^ k = (x + (b - 1)).toNat / 2 ^ k := by
    rw [UInt64.toNat_add, UInt64.toNat_add, toNat_alignUp ha, Nat.mod_add_mod,
      mod_two_pow_div hle, mod_two_pow_div hle, ← hk, roundUp_add_div ha.pos hcovers]
  rw [hk] at hcovers
  rw [← UInt64.toNat_inj, toNat_alignUp_eq_and, toNat_alignUp_eq_and]
  exact and_compl_congr hcovers (b - 1).toNat_lt hsum

/-! ## The least multiple -/

/-- The rounded address is an address where the sum with the mask is one. -/
theorem IsPowerOfTwo.roundUp_lt_two_pow (ha : IsPowerOfTwo a)
    (hx : x.toNat + a.toNat - 1 < 2 ^ 64) : roundUp x.toNat a.toNat < 2 ^ 64 := by
  have hlt := roundUp_lt (x := x.toNat) ha.pos
  omega

/-- **`align_up` computes the least aligned address.** For every power of two and every address
whose sum with the mask is not cut, the assertion holds, and the result is the least multiple of
the alignment at or above the address. It stays what it is when it is rounded again, it does
not decrease where the address grows, it is less than one step above the address, and it is
rounded to a multiple of the alignment as the address itself is. -/
theorem alignUp_isLeast (a x : UInt64) (ha : IsPowerOfTwo a)
    (hx : x.toNat + a.toNat - 1 < 2 ^ 64) :
    AlignAsserted a
      ∧ IsLeast {m | a.toNat ∣ m ∧ x.toNat ≤ m} (alignUp x a).toNat
      ∧ alignUp (alignUp x a) a = alignUp x a
      ∧ (∀ y : UInt64, x ≤ y → y.toNat + a.toNat - 1 < 2 ^ 64 → alignUp x a ≤ alignUp y a)
      ∧ (alignUp x a).toNat < x.toNat + a.toNat
      ∧ ∀ b : UInt64, a.toNat ∣ b.toNat → alignUp (alignUp x a) b = alignUp x b := by
  have hround := toNat_alignUp_of_lt ha (ha.roundUp_lt_two_pow hx)
  refine ⟨alignAsserted_iff.mpr (Or.inr ha), ?_, alignUp_alignUp ha (Nat.dvd_refl _) x,
    fun y hxy hy => ?_, ?_, fun b hdvd => alignUp_alignUp ha hdvd x⟩
  · rw [hround]
    exact roundUp_isLeast ha.pos
  · rw [UInt64.le_iff_toNat_le, hround, toNat_alignUp_of_lt ha (ha.roundUp_lt_two_pow hy)]
    exact roundUp_mono ha.pos (UInt64.le_iff_toNat_le.mp hxy)
  · rw [hround]
    exact roundUp_lt ha.pos

/-- An address that is rounded to the last page. Rounded to two pages it passes the last address,
and is rounded to the null pointer either way. -/
theorem alignUp_isLeast_lastPage :
    (0xFFFFFFFFFFFFE001 : UInt64).toNat + (4096 : UInt64).toNat - 1 < 2 ^ 64
      ∧ IsLeast {m | 4096 ∣ m ∧ 0xFFFFFFFFFFFFE001 ≤ m} 0xFFFFFFFFFFFFF000
      ∧ alignUp (alignUp 0xFFFFFFFFFFFFE001 4096) 8192 = alignUp 0xFFFFFFFFFFFFE001 8192 := by
  obtain ⟨-, hleast, -, -, -, hmultiple⟩ :=
    alignUp_isLeast 4096 0xFFFFFFFFFFFFE001 ⟨12, rfl⟩ (by decide)
  exact ⟨by decide, hleast, hmultiple 8192 (by decide)⟩
