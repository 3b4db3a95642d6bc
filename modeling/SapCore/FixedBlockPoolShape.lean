import Mathlib.Data.List.Nodup
import Mathlib.Data.List.Perm.Lattice
import SapCore.FixedBlockPool

/-!
# The free list of a pool

What a pool keeps by itself: the blocks it has cut do not overlap, and each of them is
either handed out or on the free list, once (`Shape`). Taking a block off the list,
putting one back and cutting a chunk keep this; the rest of the memory may change as it
likes, as long as the blocks on the list do not.
-/

namespace FixedBlockPool

variable {host : ByteOrder} {m m' : Memory} {h : ArenaHeap} {pool : FixedBlockPool}
  {free : List UInt64} {raw blkSize p : UInt64}

/-- Two blocks do not overlap. -/
def Apart (p size q size' : UInt64) : Prop :=
  p.toNat + size.toNat ≤ q.toNat ∨ q.toNat + size'.toNat ≤ p.toNat

/-- **The shape of a pool** whose free list is `free`. -/
structure Shape (host : ByteOrder) (m : Memory) (pool : FixedBlockPool) (free : List UInt64) :
    Prop where
  blkSize : 8 ≤ pool.blkSize.toNat
  perChunk : 1 ≤ pool.perChunk.toNat
  threads : m.Threads host 8 pool.free.toNat (free.map UInt64.toNat)
  perm : pool.carved.Perm (free ++ pool.out)
  nodup : pool.carved.Nodup
  nonzero : ∀ p ∈ pool.carved, p ≠ 0
  apart : ∀ p ∈ pool.carved, ∀ q ∈ pool.carved, p ≠ q → Apart p pool.blkSize q pool.blkSize
  length : pool.carved.length = pool.chunks * pool.perChunk.toNat

theorem toNat_ne_zero (hp : p ≠ 0) : p.toNat ≠ 0 := fun heq => hp (UInt64.toNat_inj.mp heq)

theorem toNat_lt_pow (p : UInt64) : p.toNat < 256 ^ 8 := p.toNat_lt

/-- What `next` reads is the word that is there. -/
theorem toNat_next (host : ByteOrder) (m : Memory) (p : UInt64) :
    (next host m p).toNat = m.load host 8 p.toNat := by
  have hlt : m.load host 8 p.toNat < 256 ^ 8 := by
    have hvalue := ByteOrder.value_lt host (m.bytesAt p.toNat 8)
    rwa [Memory.length_bytesAt] at hvalue
  exact UInt64.toNat_ofNat_of_lt' hlt

theorem shape_new (blockSize : UInt64) {blocksPerChunk : UInt64} (hper : 1 ≤ blocksPerChunk.toNat)
    (m : Memory) : Shape host m (new blockSize blocksPerChunk) [] where
  blkSize := by
    unfold new
    dsimp only
    split
    · exact Nat.le_refl 8
    · rename_i hle
      exact UInt64.le_iff_toNat_le.mp (UInt64.not_lt.mp hle)
  perChunk := hper
  threads := rfl
  perm := List.Perm.refl _
  nodup := List.nodup_nil
  nonzero _ hp := absurd hp List.not_mem_nil
  apart _ hp := absurd hp List.not_mem_nil
  length := (Nat.zero_mul _).symm

namespace Shape

variable (hs : Shape host m pool free)

include hs

theorem mem_carved_of_free (hp : p ∈ free) : p ∈ pool.carved :=
  hs.perm.mem_iff.mpr (List.mem_append_left _ hp)

theorem mem_carved_of_out (hp : p ∈ pool.out) : p ∈ pool.carved :=
  hs.perm.mem_iff.mpr (List.mem_append_right _ hp)

theorem nodup_append : (free ++ pool.out).Nodup := hs.perm.nodup_iff.mp hs.nodup

/-- A block that is handed out is not on the list. -/
theorem ne_of_free_out {q : UInt64} (hp : p ∈ free) (hq : q ∈ pool.out) : p ≠ q :=
  (List.nodup_append.mp hs.nodup_append).2.2 p hp q hq

theorem length_add : free.length + pool.out.length = pool.chunks * pool.perChunk.toNat := by
  rw [← hs.length, hs.perm.length_eq, List.length_append]

/-- The list is empty exactly if it begins nowhere. -/
theorem free_eq_nil_iff : free = [] ↔ pool.free = 0 := by
  have hthreads := hs.threads
  cases free with
  | nil => exact ⟨fun _ => UInt64.toNat_inj.mp hthreads, fun _ => rfl⟩
  | cons q rest =>
    refine ⟨fun heq => absurd heq (List.cons_ne_nil q rest), fun heq => ?_⟩
    rw [heq] at hthreads
    exact absurd hthreads.1.symm hthreads.2.1

/-- **The shape depends on the blocks of the list only.** -/
theorem congr (hsame : ∀ p ∈ free, m.AgreesOn m' p.toNat 8) : Shape host m' pool free :=
  { hs with
    threads := hs.threads.congr (fun q hq => by
      obtain ⟨p, hp, rfl⟩ := List.mem_map.mp hq
      exact hsame p hp) }

/-- **A block is taken off the list.** -/
theorem pop (arena : LinearArena) (hfree : pool.free ≠ 0) :
    ∃ rest, free = pool.free :: rest
      ∧ Shape host m (FixedBlockPool.pop host ⟨arena, m⟩ pool).2.2 rest := by
  cases hcases : free with
  | nil => exact absurd (hs.free_eq_nil_iff.mp hcases) hfree
  | cons q rest =>
    subst hcases
    obtain ⟨hhead, -, hrest⟩ := hs.threads
    obtain rfl : pool.free = q := UInt64.toNat_inj.mp hhead
    refine ⟨rest, rfl, { hs with threads := ?_, perm := ?_ }⟩
    · show m.Threads host 8 (next host m pool.free).toNat _
      rw [toNat_next]
      exact hrest
    · exact hs.perm.trans List.perm_middle.symm

/-- **A block is put back.** -/
theorem push (hp : p ∈ pool.out) :
    Shape host (setNext host m p pool.free) { pool with free := p, out := pool.out.erase p }
      (p :: free) where
  blkSize := hs.blkSize
  perChunk := hs.perChunk
  threads := by
    refine hs.threads.push (toNat_ne_zero (hs.nonzero p (hs.mem_carved_of_out hp)))
      (toNat_lt_pow _) (fun x hx => ?_)
    obtain ⟨q, hq, rfl⟩ := List.mem_map.mp hx
    have hapart := hs.apart q (hs.mem_carved_of_free hq) p (hs.mem_carved_of_out hp)
      (hs.ne_of_free_out hq hp)
    have hblk := hs.blkSize
    obtain hle | hle := hapart
    · exact Or.inl (by omega)
    · exact Or.inr (by omega)
  perm := by
    have hout : (free ++ pool.out).Perm (free ++ p :: pool.out.erase p) :=
      (List.perm_cons_erase hp).append_left free
    exact (hs.perm.trans hout).trans List.perm_middle
  nodup := hs.nodup
  nonzero := hs.nonzero
  apart := hs.apart
  length := hs.length

end Shape

/-! ## Cutting a chunk -/

theorem toNat_blockAt {i : ℕ} (hfit : raw.toNat + i * blkSize.toNat < 2 ^ 64)
    (hi : i < 2 ^ 64) : (blockAt raw blkSize i).toNat = raw.toNat + i * blkSize.toNat := by
  have hofNat : (UInt64.ofNat i).toNat = i := UInt64.toNat_ofNat_of_lt' hi
  have hmul : (UInt64.ofNat i * blkSize).toNat = i * blkSize.toNat := by
    rw [UInt64.toNat_mul, hofNat]
    exact Nat.mod_eq_of_lt (Nat.lt_of_le_of_lt (Nat.le_add_left _ _) hfit)
  rw [blockAt, UInt64.toNat_add, hmul, Nat.mod_eq_of_lt hfit]

/-- A chunk that does not pass the end of the address space. -/
structure Fits (raw blkSize : UInt64) (n : ℕ) : Prop where
  nonnull : raw ≠ 0
  large : 8 ≤ blkSize.toNat
  sum : raw.toNat + n * blkSize.toNat < 2 ^ 64

namespace Fits

variable {n : ℕ} (hfit : Fits raw blkSize n)

include hfit

/-- Where the blocks of a chunk are. -/
theorem toNat_block {i : ℕ} (hi : i ≤ n) :
    (blockAt raw blkSize i).toNat = raw.toNat + i * blkSize.toNat := by
  have hle : i * blkSize.toNat ≤ n * blkSize.toNat := Nat.mul_le_mul_right _ hi
  have hi' : i * 8 ≤ i * blkSize.toNat := Nat.mul_le_mul_left i hfit.large
  have hsum := hfit.sum
  exact toNat_blockAt (by omega) (by omega)

theorem exists_index (hp : p ∈ chunkBlocks raw blkSize n) :
    ∃ i < n, p.toNat = raw.toNat + i * blkSize.toNat := by
  obtain ⟨i, hi, rfl⟩ := List.mem_map.mp hp
  exact ⟨i, List.mem_range.mp hi, hfit.toNat_block (Nat.le_of_lt (List.mem_range.mp hi))⟩

/-- **A block of a chunk lies in it.** -/
theorem inside (hp : p ∈ chunkBlocks raw blkSize n) :
    raw.toNat ≤ p.toNat ∧ p.toNat + blkSize.toNat ≤ raw.toNat + n * blkSize.toNat := by
  obtain ⟨i, hi, hpos⟩ := hfit.exists_index hp
  have hle : (i + 1) * blkSize.toNat ≤ n * blkSize.toNat := Nat.mul_le_mul_right _ hi
  rw [Nat.add_mul, Nat.one_mul] at hle
  omega

/-- **The blocks of a chunk do not overlap.** -/
theorem apart {q : UInt64} (hp : p ∈ chunkBlocks raw blkSize n)
    (hq : q ∈ chunkBlocks raw blkSize n) (hne : p ≠ q) : Apart p blkSize q blkSize := by
  obtain ⟨i, hi, hpos⟩ := hfit.exists_index hp
  obtain ⟨j, hj, hpos'⟩ := hfit.exists_index hq
  obtain hlt | heq | hlt := Nat.lt_trichotomy i j
  · have hle : (i + 1) * blkSize.toNat ≤ j * blkSize.toNat := Nat.mul_le_mul_right _ hlt
    rw [Nat.add_mul, Nat.one_mul] at hle
    exact Or.inl (by omega)
  · subst heq
    exact absurd (UInt64.toNat_inj.mp (hpos.trans hpos'.symm)) hne
  · have hle : (j + 1) * blkSize.toNat ≤ i * blkSize.toNat := Nat.mul_le_mul_right _ hlt
    rw [Nat.add_mul, Nat.one_mul] at hle
    exact Or.inr (by omega)

theorem nodup : (chunkBlocks raw blkSize n).Nodup := by
  refine List.Nodup.map_on (fun i hi j hj heq => ?_) List.nodup_range
  have hi' := hfit.toNat_block (Nat.le_of_lt (List.mem_range.mp hi))
  have hj' := hfit.toNat_block (Nat.le_of_lt (List.mem_range.mp hj))
  rw [heq, hj'] at hi'
  have hpos : 0 < blkSize.toNat := Nat.lt_of_lt_of_le (by decide) hfit.large
  exact (Nat.eq_of_mul_eq_mul_right hpos (Nat.add_left_cancel hi')).symm

/-- **What the loop of `add_chunk` leaves**: the blocks are on the list, the last in front,
and nothing else is written. -/
theorem threadChunk_spec (m : Memory) :
    (threadChunk host raw blkSize m 0 n).1.Threads host 8
        (threadChunk host raw blkSize m 0 n).2.toNat
        ((chunkBlocks raw blkSize n).reverse.map UInt64.toNat)
      ∧ ∀ x, x < raw.toNat ∨ raw.toNat + n * blkSize.toNat ≤ x →
        (threadChunk host raw blkSize m 0 n).1 x = m x := by
  induction n with
  | zero => exact ⟨rfl, fun _ _ => rfl⟩
  | succ n ih =>
    have hblk := hfit.large
    have hsum := hfit.sum
    rw [Nat.add_mul, Nat.one_mul] at hsum
    have hfit' : Fits raw blkSize n := ⟨hfit.nonnull, hblk, by omega⟩
    obtain ⟨hthreads, hsame⟩ := ih hfit'
    have hpos : (blockAt raw blkSize n).toNat = raw.toNat + n * blkSize.toNat :=
      hfit'.toNat_block (Nat.le_refl n)
    have hblocks : (chunkBlocks raw blkSize (n + 1)).reverse
        = blockAt raw blkSize n :: (chunkBlocks raw blkSize n).reverse := by
      simp [chunkBlocks, List.range_succ]
    rw [hblocks]
    refine ⟨hthreads.push ?_ (toNat_lt_pow _) (fun x hx => Or.inl ?_), fun x hx => ?_⟩
    · have hraw := toNat_ne_zero hfit.nonnull
      omega
    · obtain ⟨q, hq, rfl⟩ := List.mem_map.mp hx
      have hinside := hfit'.inside (List.mem_reverse.mp hq)
      omega
    · rw [← hsame x (by rw [Nat.add_mul] at hx; omega)]
      refine Memory.write_of_not_mem (fun hmem => ?_)
      rw [ByteOrder.length_image, hpos] at hmem
      rw [Nat.add_mul, Nat.one_mul] at hx
      omega

end Fits

/-- **A chunk is cut**, at an address past the blocks of the pool. -/
theorem Shape.cut (hs : Shape host m pool []) (hfree : pool.free = 0)
    (hfit : Fits raw pool.blkSize pool.perChunk.toNat)
    (hold : ∀ p ∈ pool.carved, p.toNat + pool.blkSize.toNat ≤ raw.toNat) :
    Shape host (pool.cut host m raw).1 (pool.cut host m raw).2
      (chunkBlocks raw pool.blkSize pool.perChunk.toNat).reverse where
  blkSize := hs.blkSize
  perChunk := hs.perChunk
  threads := by
    unfold FixedBlockPool.cut
    rw [hfree]
    exact (hfit.threadChunk_spec m).1
  perm := by
    have hout : pool.carved.Perm pool.out := hs.perm
    exact (List.perm_append_comm.trans (hout.append_left _)).trans
      ((List.reverse_perm _).symm.append_right _)
  nodup := by
    refine List.nodup_append.mpr ⟨hs.nodup, hfit.nodup, fun p hp q hq heq => ?_⟩
    have hle := hold p hp
    have hge := (hfit.inside hq).1
    have hblk := hs.blkSize
    rw [heq] at hle
    omega
  nonzero p hp := by
    obtain hp | hp := List.mem_append.mp hp
    · exact hs.nonzero p hp
    · rintro rfl
      have hge := (hfit.inside hp).1
      exact toNat_ne_zero hfit.nonnull (Nat.le_zero.mp hge)
  apart p hp q hq hne := by
    obtain hp | hp := List.mem_append.mp hp
    · obtain hq | hq := List.mem_append.mp hq
      · exact hs.apart p hp q hq hne
      · exact Or.inl (Nat.le_trans (hold p hp) (hfit.inside hq).1)
    · obtain hq | hq := List.mem_append.mp hq
      · exact Or.inr (Nat.le_trans (hold q hq) (hfit.inside hp).1)
      · exact hfit.apart hp hq hne
  length := by
    show (pool.carved ++ chunkBlocks raw pool.blkSize pool.perChunk.toNat).length
      = (pool.chunks + 1) * pool.perChunk.toNat
    rw [List.length_append, hs.length, chunkBlocks, List.length_map, List.length_range,
      Nat.add_mul, Nat.one_mul]

end FixedBlockPool
