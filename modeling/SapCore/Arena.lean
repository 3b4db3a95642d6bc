import Mathlib.Order.Interval.Set.Defs
import SapCore.Alignment

/-!
# Bump arenas

`linear_arena` hands out memory of a buffer by moving a cursor forward: the cursor is
rounded up to the alignment, the size is added, and the sum is compared with the end
of the buffer. `stack_arena` does the same over a buffer of its own. Addresses and
sizes are 64-bit words, and both sums are taken modulo `2 ^ 64`. The null pointer
is `0`.

The rounded cursor may be `2 ^ 64`, which is the address zero, and the sum may pass
`2 ^ 64` and come out small. Where it does not, a call does what it should
(`bump_of_lt`).
-/

open Alignment

/-- `align_up`. -/
def alignUp (x a : UInt64) : UInt64 :=
  let mask := a - 1
  (x + mask) &&& ~~~mask

/-- **What `allocate` does in both arenas**, given the cursor and the end of the buffer:
the address it returns, and the new cursor. -/
def bump (cur end_ bytes align : UInt64) : UInt64 × UInt64 :=
  let aligned := alignUp cur align
  if aligned + bytes > end_ then (0, cur) else (aligned, aligned + bytes)

/-- **`linear_arena`.** -/
structure LinearArena where
  begin_ : UInt64
  cur : UInt64
  end_ : UInt64
  deriving DecidableEq, Repr

namespace LinearArena

/-- An arena over the buffer at an address. -/
def new (mem bytes : UInt64) : LinearArena := ⟨mem, mem, mem + bytes⟩

/-- `allocate`. -/
def allocate (a : LinearArena) (bytes align : UInt64) : UInt64 × LinearArena :=
  let r := bump a.cur a.end_ bytes align
  (r.1, { a with cur := r.2 })

/-- `reset`. -/
def reset (a : LinearArena) : LinearArena := { a with cur := a.begin_ }

end LinearArena

/-- **`stack_arena`**, of so many bytes; `buf` is the address of its buffer. -/
structure StackArena (N : UInt64) where
  buf : UInt64
  cur : UInt64
  deriving DecidableEq, Repr

namespace StackArena

variable {N : UInt64}

/-- A new arena whose buffer is at an address. -/
def new (buf : UInt64) : StackArena N := ⟨buf, buf⟩

/-- `allocate`. -/
def allocate (a : StackArena N) (bytes align : UInt64) : UInt64 × StackArena N :=
  let r := bump a.cur (a.buf + N) bytes align
  (r.1, { a with cur := r.2 })

/-- `reset`. -/
def reset (a : StackArena N) : StackArena N := { a with cur := a.buf }

/-- The same arena, with its end written down. -/
def linear (a : StackArena N) : LinearArena := ⟨a.buf, a.cur, a.buf + N⟩

theorem linear_allocate (a : StackArena N) (bytes align : UInt64) :
    ((a.allocate bytes align).1, (a.allocate bytes align).2.linear)
      = a.linear.allocate bytes align := rfl

end StackArena

/-- A block that was handed out. -/
structure ArenaBlock where
  addr : UInt64
  bytes : UInt64
  deriving DecidableEq, Repr

/-- Its addresses. -/
def ArenaBlock.range (b : ArenaBlock) : Set ℕ :=
  Set.Ico b.addr.toNat (b.addr.toNat + b.bytes.toNat)

/-! ## The call in exact integers -/

/-- An alignment. -/
def IsPowerOfTwo (align : UInt64) : Prop := ∃ k, align.toNat = 2 ^ k

variable {x cur end_ bytes align : UInt64}

theorem IsPowerOfTwo.pos (h : IsPowerOfTwo align) : 0 < align.toNat := by
  obtain ⟨k, hk⟩ := h
  rw [hk]
  exact Nat.two_pow_pos k

/-- The exponent of an alignment is at most the width of a word. -/
theorem IsPowerOfTwo.exists_le (h : IsPowerOfTwo align) : ∃ k ≤ 64, align.toNat = 2 ^ k := by
  obtain ⟨k, hk⟩ := h
  have hlt : 2 ^ k < 2 ^ 64 := hk ▸ align.toNat_lt
  exact ⟨k, Nat.le_of_lt ((Nat.pow_lt_pow_iff_right (by decide)).mp hlt), hk⟩

theorem IsPowerOfTwo.dvd (h : IsPowerOfTwo align) : align.toNat ∣ 2 ^ 64 := by
  obtain ⟨k, hle, hk⟩ := h.exists_le
  rw [hk]
  exact Nat.pow_dvd_pow 2 hle

/-- The mask of an alignment. -/
theorem toNat_sub_one (h : 0 < align.toNat) : (align - 1).toNat = align.toNat - 1 :=
  UInt64.toNat_sub_of_le _ _ (UInt64.le_iff_toNat_le.mpr h)

/-- The rounded cursor is an address, or the end of the address space. -/
theorem roundUp_le_two_pow (h : IsPowerOfTwo align) (x : UInt64) :
    roundUp x.toNat align.toNat ≤ 2 ^ 64 :=
  roundUp_le h.pos h.dvd (Nat.le_of_lt x.toNat_lt)

/-- What `align_up` computes, whatever the alignment is. -/
theorem toNat_alignUp_eq_and :
    (alignUp x align).toNat = (x + (align - 1)).toNat &&& (2 ^ 64 - 1 - (align - 1).toNat) := by
  rw [alignUp, UInt64.toNat_and, UInt64.toNat_not]
  rfl

/-- **`align_up` rounds up**, modulo `2 ^ 64`. -/
theorem toNat_alignUp (h : IsPowerOfTwo align) :
    (alignUp x align).toNat = roundUp x.toNat align.toNat % 2 ^ 64 := by
  have hmask := toNat_sub_one h.pos
  obtain ⟨k, hle, hk⟩ := h.exists_le
  rw [hk] at hmask
  rw [toNat_alignUp_eq_and, UInt64.toNat_add, hmask,
    and_compl_mask hle (Nat.mod_lt _ (Nat.two_pow_pos 64)), mod_div_mul_two_pow hle, roundUp, hk]

/-- **`align_up` rounds up**, to an address. -/
theorem toNat_alignUp_of_lt (h : IsPowerOfTwo align)
    (hlt : roundUp x.toNat align.toNat < 2 ^ 64) :
    (alignUp x align).toNat = roundUp x.toNat align.toNat := by
  rw [toNat_alignUp h, Nat.mod_eq_of_lt hlt]

/-- A cursor that is rounded past the last address becomes the null pointer. -/
theorem alignUp_eq_zero (h : IsPowerOfTwo align) (hround : roundUp x.toNat align.toNat = 2 ^ 64) :
    alignUp x align = 0 := by
  rw [← UInt64.toNat_inj, toNat_alignUp h, hround, Nat.mod_self]
  rfl

/-- The sum that is compared with the end of the buffer. -/
theorem toNat_alignUp_add (h : IsPowerOfTwo align) :
    (alignUp cur align + bytes).toNat
      = (roundUp cur.toNat align.toNat + bytes.toNat) % 2 ^ 64 := by
  rw [UInt64.toNat_add, toNat_alignUp h, Nat.mod_add_mod]

/-- **A call whose sum does not pass `2 ^ 64`** returns the rounded cursor if the sum is
not past the end, and nothing otherwise. -/
theorem bump_of_lt (h : IsPowerOfTwo align)
    (hlt : roundUp cur.toNat align.toNat + bytes.toNat < 2 ^ 64) :
    (roundUp cur.toNat align.toNat + bytes.toNat ≤ end_.toNat
        ∧ (bump cur end_ bytes align).1.toNat = roundUp cur.toNat align.toNat
        ∧ (bump cur end_ bytes align).2.toNat = roundUp cur.toNat align.toNat + bytes.toNat)
      ∨ (end_.toNat < roundUp cur.toNat align.toNat + bytes.toNat
        ∧ bump cur end_ bytes align = (0, cur)) := by
  have haligned := toNat_alignUp_of_lt h (Nat.lt_of_le_of_lt (Nat.le_add_right _ _) hlt)
  have hsum : (alignUp cur align + bytes).toNat
      = roundUp cur.toNat align.toNat + bytes.toNat := by
    rw [toNat_alignUp_add h, Nat.mod_eq_of_lt hlt]
  unfold bump
  dsimp only
  split
  · rename_i hgt
    rw [gt_iff_lt, UInt64.lt_iff_toNat_lt, hsum] at hgt
    exact Or.inr ⟨hgt, rfl⟩
  · rename_i hle
    rw [gt_iff_lt, UInt64.lt_iff_toNat_lt, hsum, Nat.not_lt] at hle
    exact Or.inl ⟨hle, haligned, hsum⟩
