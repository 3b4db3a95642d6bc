import SapCore.PoolAllocatorAlignment

/-!
# When the allocator adapters return enough memory

`linear_allocator`, `stack_allocator` and `pool_allocator` turn a number of elements into a
number of bytes and ask an arena for them. The first refuses a number whose bytes are no
word; the other two multiply in 64 bits, so that the arena may be asked for less than the
caller will use. The arena adds in 64 bits as well, and so does the pool that serves single
elements, whose request is for 256 blocks at once.

`Adequate` is what a call owes, over exact integers. Each adapter has its condition on a
call under which it pays it: `LinearAllocator.Guarded`, `StackAllocator.Guarded` and, for
arrays, `PoolAllocator.Guarded` are exact. A single element of a pool is the last block of
the chunk, and a chunk that is granted although its size wraps may by accident end with a
block that is free; so the condition is exact over buffers that leave no room for such an
accident (`LinearArena.Modest`), and sufficient over all. The storage handed out is any
that the state allows: it lies before the cursor, and off the block in front of the free
list.
-/

open Alignment

/-- **Enough memory, or `bad_alloc`**: what a call returned has so many bytes inside the buffer
from `first` to `last`, none of which is handed out. -/
def Adequate (first last : UInt64) (out : Set ArenaBlock) (bytes : ℕ) (result : Option UInt64) :
    Prop :=
  ∀ p, result = some p → first.toNat ≤ p.toNat ∧ p.toNat + bytes ≤ last.toNat
    ∧ ∀ b ∈ out, Disjoint b.range (Set.Ico p.toNat (p.toNat + bytes))

namespace LinearArena

/-- The cursor is in the buffer. -/
def InOrder (a : LinearArena) : Prop := a.begin_.toNat ≤ a.cur.toNat ∧ a.cur.toNat ≤ a.end_.toNat

instance (a : LinearArena) : Decidable a.InOrder := inferInstanceAs (Decidable (_ ∧ _))

/-- The buffer is smaller than `2 ^ 56` bytes, and does not reach the last word of the address
space. -/
def Modest (a : LinearArena) : Prop :=
  a.end_.toNat < a.begin_.toNat + 2 ^ 56 ∧ a.end_.toNat + 8 ≤ 2 ^ 64

/-- **Storage that is handed out** lies before the cursor. -/
def Holds (a : LinearArena) (out : Set ArenaBlock) : Prop :=
  ∀ b ∈ out, a.begin_.toNat ≤ b.addr.toNat ∧ b.addr.toNat + b.bytes.toNat ≤ a.cur.toNat

/-- **A request is refused**: the rounded cursor is the null address, or the sum as it is computed
is past the end. -/
def Refuses (a : LinearArena) (bytes align : UInt64) : Prop :=
  alignUp a.cur align = 0 ∨ a.end_ < alignUp a.cur align + bytes

/-- **A request is right**: it is refused, or the sum, taken exactly, is a word. -/
def Guards (a : LinearArena) (bytes : ℕ) (align : UInt64) : Prop :=
  a.Refuses (UInt64.ofNat bytes) align ∨ roundUp a.cur.toNat align.toNat + bytes < 2 ^ 64

variable {a : LinearArena} {bytes align : UInt64}

theorem allocate_of_refuses (h : a.Refuses bytes align) : (a.allocate bytes align).1 = 0 := by
  unfold allocate bump
  dsimp only
  split
  · rfl
  · rename_i hle
    exact h.resolve_right hle

theorem allocate_of_not_refuses (h : ¬ a.Refuses bytes align) :
    alignUp a.cur align ≠ 0 ∧ a.allocate bytes align
      = (alignUp a.cur align, { a with cur := alignUp a.cur align + bytes }) := by
  obtain ⟨hne, hle⟩ := not_or.mp h
  refine ⟨hne, ?_⟩
  unfold allocate bump
  dsimp only
  rw [if_neg hle]

/-- A rounded cursor that is not null is rounded exactly. -/
theorem toNat_alignUp_of_ne_zero (halign : IsPowerOfTwo align) (hne : alignUp a.cur align ≠ 0) :
    (alignUp a.cur align).toNat = roundUp a.cur.toNat align.toNat := by
  obtain hlt | heq := Nat.lt_or_eq_of_le (roundUp_le_two_pow halign a.cur)
  · exact toNat_alignUp_of_lt halign hlt
  · exact absurd (alignUp_eq_zero halign heq) hne

/-- What the callers of `allocate` make of what it returns. -/
def orThrow (p : UInt64) : Option UInt64 := if p = 0 then none else some p

/-- Memory past the cursor is not handed out. -/
theorem Holds.disjoint {out : Set ArenaBlock} (hout : a.Holds out) {p n : ℕ}
    (hp : a.cur.toNat ≤ p) : ∀ b ∈ out, Disjoint b.range (Set.Ico p (p + n)) := by
  intro b hb
  have hle := (hout b hb).2
  rw [Set.disjoint_left]
  rintro x ⟨-, hlt⟩ ⟨hge, -⟩
  omega

/-- **A request for a number of bytes**, reduced to a word, is adequate exactly if it is right. -/
theorem adequate_iff {out : Set ArenaBlock} (ha : a.InOrder) (hout : a.Holds out)
    (halign : IsPowerOfTwo align) (n : ℕ) :
    Adequate a.begin_ a.end_ out n (orThrow (a.allocate (UInt64.ofNat n) align).1)
      ↔ a.Guards n align := by
  by_cases hrefuses : a.Refuses (UInt64.ofNat n) align
  · refine iff_of_true (fun p hp => ?_) (Or.inl hrefuses)
    rw [orThrow, if_pos (allocate_of_refuses hrefuses)] at hp
    cases hp
  · obtain ⟨hne, hallocate⟩ := allocate_of_not_refuses hrefuses
    have hround := toNat_alignUp_of_ne_zero halign hne
    have hge := le_roundUp (x := a.cur.toNat) halign.pos
    have hlast := a.end_.toNat_lt
    rw [hallocate, orThrow, if_neg hne]
    refine ⟨fun h => Or.inr ?_, fun h p hp => ?_⟩
    · obtain ⟨-, hle, -⟩ := h (alignUp a.cur align) rfl
      omega
    · obtain rfl := Option.some.inj hp
      have hlt := h.resolve_left hrefuses
      have hword : n < UInt64.size := Nat.lt_of_le_of_lt (Nat.le_add_left _ _) hlt
      have hle : ¬ a.end_ < alignUp a.cur align + UInt64.ofNat n := (not_or.mp hrefuses).2
      rw [UInt64.lt_iff_toNat_lt, UInt64.toNat_add, hround, UInt64.toNat_ofNat_of_lt' hword,
        Nat.mod_eq_of_lt hlt, Nat.not_lt] at hle
      rw [hround]
      exact ⟨Nat.le_trans ha.1 hge, hle, hout.disjoint hge⟩

end LinearArena

/-! ## The adapters of the arenas -/

/-- A number of elements, in bytes. -/
def ElementType.bytes (T : ElementType) (n : UInt64) : ℕ := n.toNat * T.size.toNat

/-- The number of bytes as it is computed. -/
theorem ElementType.ofNat_bytes (T : ElementType) (n : UInt64) :
    UInt64.ofNat (T.bytes n) = n * T.size := by
  rw [← UInt64.toNat_inj, UInt64.toNat_mul, UInt64.toNat_ofNat']
  rfl

namespace LinearAllocator

/-- `std::numeric_limits<std::size_t>::max()`. -/
def maxSize : UInt64 := 18446744073709551615

/-- **`linear_allocator::allocate`**: the address, or none if `bad_alloc` is thrown. -/
def allocate (T : ElementType) (arena : LinearArena) (n : UInt64) :
    Option UInt64 × LinearArena :=
  if n > maxSize / T.size then (none, arena)
  else
    let r := arena.allocate (n * T.size) T.align
    (LinearArena.orThrow r.1, r.2)

/-- **The condition**: the bytes are no word, or the request is right. -/
def Guarded (T : ElementType) (arena : LinearArena) (n : UInt64) : Prop :=
  2 ^ 64 ≤ T.bytes n ∨ arena.Guards (T.bytes n) T.align

/-- The test by division finds the numbers whose bytes are no word. -/
theorem gt_iff (T : ElementType) (n : UInt64) : n > maxSize / T.size ↔ 2 ^ 64 ≤ T.bytes n := by
  have hmax : maxSize.toNat = 2 ^ 64 - 1 := rfl
  rw [gt_iff_lt, UInt64.lt_iff_toNat_lt, UInt64.toNat_div, hmax, Nat.div_lt_iff_lt_mul T.pos,
    ElementType.bytes]
  omega

theorem adequate_iff (T : ElementType) {arena : LinearArena} (n : UInt64) {out : Set ArenaBlock}
    (ha : arena.InOrder) (hout : arena.Holds out) :
    Adequate arena.begin_ arena.end_ out (T.bytes n) (allocate T arena n).1
      ↔ Guarded T arena n := by
  unfold allocate Guarded
  by_cases hgt : n > maxSize / T.size
  · rw [if_pos hgt]
    exact iff_of_true (fun p hp => by cases hp) (Or.inl ((gt_iff T n).mp hgt))
  · rw [if_neg hgt, or_iff_right (fun hle => hgt ((gt_iff T n).mpr hle)), ← T.ofNat_bytes n]
    exact LinearArena.adequate_iff ha hout T.isPowerOfTwo _

end LinearAllocator

namespace StackAllocator

variable {N : UInt64}

/-- **`stack_allocator::allocate`**: the address, or none if `bad_alloc` is thrown. -/
def allocate (T : ElementType) (arena : StackArena N) (n : UInt64) :
    Option UInt64 × StackArena N :=
  let r := arena.allocate (n * T.size) T.align
  (LinearArena.orThrow r.1, r.2)

/-- **The condition**: the request is right. -/
def Guarded (T : ElementType) (arena : StackArena N) (n : UInt64) : Prop :=
  arena.linear.Guards (T.bytes n) T.align

theorem adequate_iff (T : ElementType) {arena : StackArena N} (n : UInt64) {out : Set ArenaBlock}
    (ha : arena.linear.InOrder) (hout : arena.linear.Holds out) :
    Adequate arena.linear.begin_ arena.linear.end_ out (T.bytes n) (allocate T arena n).1
      ↔ Guarded T arena n := by
  have hsame : (arena.allocate (n * T.size) T.align).1
      = (arena.linear.allocate (n * T.size) T.align).1 := rfl
  unfold allocate Guarded
  dsimp only
  rw [hsame, ← T.ofNat_bytes n]
  exact LinearArena.adequate_iff ha hout T.isPowerOfTwo _

end StackAllocator

/-! ## The adapter of the pools -/

namespace PoolAllocator

open Allocators FixedBlockPool

variable {ν θ : Type} {types : θ → ElementType} {target : Target} {mem size : UInt64}
  {s : Allocators ν θ} {a : PoolAllocator θ}

/-- **An allocator is in order**: the cursor of its arena is in the buffer; and if it has a pool,
it is one for its element type, whose first free block, if any, lies before the cursor. -/
structure InOrder (types : θ → ElementType) (s : Allocators ν θ) (a : PoolAllocator θ) : Prop where
  arena : s.heap.arena.InOrder
  pool : a.pool ≠ 0 → ∃ pool, s.pools a.pool = some pool
    ∧ pool.blkSize = (FixedBlockPool.new (types a.type).size blocksPerChunk).blkSize
    ∧ pool.perChunk = blocksPerChunk
    ∧ (pool.free ≠ 0 → s.heap.arena.begin_.toNat ≤ pool.free.toNat
      ∧ pool.free.toNat + pool.blkSize.toNat ≤ s.heap.arena.cur.toNat)

/-- **Storage that is handed out** lies before the cursor, and off the first free block. -/
structure Holds (s : Allocators ν θ) (a : PoolAllocator θ) (out : Set ArenaBlock) : Prop where
  arena : s.heap.arena.Holds out
  free : a.pool ≠ 0 → ∀ pool, s.pools a.pool = some pool → pool.free ≠ 0 →
    ∀ b ∈ out, Disjoint b.range (ArenaBlock.range ⟨pool.free, pool.blkSize⟩)

/-- The size of a chunk, in bytes. -/
def chunkBytes (T : ElementType) : ℕ := max T.size.toNat 8 * 256

/-- The arena, after the pool object was taken of it. -/
def pastPoolObject (target : Target) (arena : LinearArena) : LinearArena :=
  ⟨arena.begin_, alignUp arena.cur poolAlign + target.poolSize, arena.end_⟩

/-- **The condition** on a call of `allocate`: an array is asked for rightly; where the pool has
to be made, it or the chunk is refused, or both, taken exactly, end in the address space; and
where the free list is empty, the chunk is asked for rightly. -/
structure Guarded (target : Target) (types : θ → ElementType) (s : Allocators ν θ)
    (a : PoolAllocator θ) (n : UInt64) : Prop where
  array : n ≠ 1 → s.heap.arena.Guards ((types a.type).bytes n) (types a.type).align
  first : n = 1 → a.pool = 0 → s.heap.arena.Refuses target.poolSize poolAlign
    ∨ (pastPoolObject target s.heap.arena).Refuses (UInt64.ofNat (chunkBytes (types a.type)))
      target.maxAlign
    ∨ roundUp (roundUp s.heap.arena.cur.toNat poolAlign.toNat + target.poolSize.toNat)
      target.maxAlign.toNat + chunkBytes (types a.type) < 2 ^ 64
  next : n = 1 → a.pool ≠ 0 → (poolAt s a.pool).free = 0 →
    s.heap.arena.Guards (chunkBytes (types a.type)) target.maxAlign

/-! ### Single elements -/

/-- The size of a chunk, as it is computed. -/
theorem ofNat_chunkBytes (T : ElementType) : UInt64.ofNat (chunkBytes T)
    = (FixedBlockPool.new T.size blocksPerChunk).blkSize * blocksPerChunk := by
  rw [← UInt64.toNat_inj, UInt64.toNat_mul, AllocatorClients.toNat_blkSize_new,
    UInt64.toNat_ofNat']
  rfl

/-- The block in front, after a chunk was cut. -/
theorem free_cut {pool : FixedBlockPool} {k : ℕ} (hk : pool.perChunk.toNat = k + 1)
    (host : ByteOrder) (m : Memory) (raw : UInt64) :
    (pool.cut host m raw).2.free = blockAt raw pool.blkSize k := by
  simp only [cut, hk, threadChunk]

/-- A single element, of a pool whose list is empty. -/
theorem allocate_of_empty (T : ElementType) {pool : FixedBlockPool} {h : ArenaHeap}
    (hfree : pool.free = 0) (hper : pool.perChunk = blocksPerChunk)
    (hblk : pool.blkSize = (FixedBlockPool.new T.size blocksPerChunk).blkSize) :
    (h.arena.Refuses (UInt64.ofNat (chunkBytes T)) target.maxAlign →
        (pool.allocate target h).1 = none)
      ∧ (¬ h.arena.Refuses (UInt64.ofNat (chunkBytes T)) target.maxAlign →
        (pool.allocate target h).1
          = some (blockAt (alignUp h.arena.cur target.maxAlign) pool.blkSize 255)) := by
  have hbytes : UInt64.ofNat (chunkBytes T) = pool.blkSize * pool.perChunk := by
    rw [ofNat_chunkBytes, hblk, hper]
  rw [hbytes]
  refine ⟨fun hrefuses => ?_, fun hrefuses => ?_⟩
  · simp [FixedBlockPool.allocate, hfree, addChunk, LinearArena.allocate_of_refuses hrefuses]
  · obtain ⟨hne, hchunk⟩ := LinearArena.allocate_of_not_refuses hrefuses
    have h256 : pool.perChunk.toNat = 255 + 1 := by
      rw [hper]
      rfl
    rw [allocate_of_chunk hfree hne hchunk]
    exact congrArg some (free_cut h256 target.host h.memory _)

/-- Everything before the cursor. -/
def usedUp (arena : LinearArena) : Set ArenaBlock :=
  {⟨arena.begin_, arena.cur - arena.begin_⟩}

theorem range_usedUp {arena : LinearArena} (ha : arena.InOrder) :
    ArenaBlock.range ⟨arena.begin_, arena.cur - arena.begin_⟩
      = Set.Ico arena.begin_.toNat arena.cur.toNat := by
  have hsub := UInt64.toNat_sub_of_le _ _ (UInt64.le_iff_toNat_le.mpr ha.1)
  have hle := ha.1
  unfold ArenaBlock.range
  dsimp only
  rw [hsub, Nat.add_sub_cancel' hle]

theorem holds_usedUp {arena : LinearArena} (ha : arena.InOrder) : arena.Holds (usedUp arena) := by
  rintro b rfl
  have hsub := UInt64.toNat_sub_of_le _ _ (UInt64.le_iff_toNat_le.mpr ha.1)
  have hle := ha.1
  refine ⟨Nat.le_refl _, ?_⟩
  dsimp only
  rw [hsub, Nat.add_sub_cancel' hle]

/-- **Where the last block of a chunk lies**, as its address is computed from a rounded cursor that
is `raw` exactly: behind what is used and with room for an element if the chunk, taken exactly,
ends in the address space; and only then, if the buffer is modest and the cursor has not moved
far. -/
theorem lastBlock_iff (T : ElementType) {arena : LinearArena} {used : UInt64} {raw : ℕ}
    (hraw : (alignUp arena.cur target.maxAlign).toNat = raw % 2 ^ 64) (hge : used.toNat ≤ raw)
    (hgranted : ¬ arena.Refuses (UInt64.ofNat (chunkBytes T)) target.maxAlign) {last : UInt64}
    (hlast : last = blockAt (alignUp arena.cur target.maxAlign)
      (FixedBlockPool.new T.size blocksPerChunk).blkSize 255) :
    (raw + chunkBytes T < 2 ^ 64 →
        used.toNat ≤ last.toNat ∧ last.toNat + T.size.toNat ≤ arena.end_.toNat)
      ∧ (arena.Modest → arena.begin_.toNat ≤ used.toNat → raw < used.toNat + 256 →
        used.toNat ≤ last.toNat → last.toNat + T.size.toNat ≤ arena.end_.toNat →
        raw + chunkBytes T < 2 ^ 64) := by
  have hpos := T.pos
  have hsum : last.toNat = (raw + 255 * max T.size.toNat 8) % 2 ^ 64 := by
    have h255 : (UInt64.ofNat 255).toNat = 255 := rfl
    rw [hlast, blockAt, UInt64.toNat_add, UInt64.toNat_mul, AllocatorClients.toNat_blkSize_new,
      hraw, h255, ← Nat.add_mod]
  refine ⟨fun hlt => ?_, fun hmodest hbegin hnear hused hle => ?_⟩
  · have hfits : (raw + chunkBytes T) % 2 ^ 64 ≤ arena.end_.toNat := by
      have hle := UInt64.le_iff_toNat_le.mp (UInt64.not_lt.mp (not_or.mp hgranted).2)
      rwa [UInt64.toNat_add, hraw, UInt64.toNat_ofNat', ← Nat.add_mod] at hle
    rw [Nat.mod_eq_of_lt hlt] at hfits
    unfold chunkBytes at hlt hfits
    rw [Nat.mod_eq_of_lt (by omega)] at hsum
    omega
  · -- the element is in the buffer, so that the chunk is no longer than the address space
    obtain ⟨hsmall, hend⟩ := hmodest
    unfold chunkBytes
    omega

/-- **A single element for which a chunk is cut**, of what may be another arena than the one whose
storage is handed out: the pool object has been taken of it since. -/
theorem chunk_adequate_iff (T : ElementType) {arena : LinearArena} (ha : arena.InOrder)
    {pool : FixedBlockPool} {h : ArenaHeap} (hend : h.arena.end_ = arena.end_)
    (hfree : pool.free = 0) (hper : pool.perChunk = blocksPerChunk)
    (hblk : pool.blkSize = (FixedBlockPool.new T.size blocksPerChunk).blkSize)
    (hgranted : ¬ h.arena.Refuses (UInt64.ofNat (chunkBytes T)) target.maxAlign) {last : UInt64}
    (hlast : last = blockAt (alignUp h.arena.cur target.maxAlign)
      (FixedBlockPool.new T.size blocksPerChunk).blkSize 255) :
    (∀ out, arena.Holds out →
        Adequate arena.begin_ arena.end_ out T.size.toNat (pool.allocate target h).1)
      ↔ arena.cur.toNat ≤ last.toNat ∧ last.toNat + T.size.toNat ≤ h.arena.end_.toNat := by
  rw [(allocate_of_empty T hfree hper hblk).2 hgranted, hblk, ← hlast, hend]
  refine ⟨fun hadequate => ?_, fun hfits out hout p hp => ?_⟩
  · obtain ⟨hge, hle, hdisjoint⟩ := hadequate (usedUp arena) (holds_usedUp ha) _ rfl
    refine ⟨Nat.not_lt.mp (fun hlt => ?_), hle⟩
    have hpos := T.pos
    have hapart := hdisjoint _ rfl
    rw [range_usedUp ha, Set.disjoint_left] at hapart
    exact hapart ⟨hge, hlt⟩ ⟨Nat.le_refl _, Nat.lt_add_of_pos_right hpos⟩
  · obtain rfl := Option.some.inj hp
    exact ⟨Nat.le_trans ha.1 hfits.1, hfits.2, hout.disjoint hfits.1⟩

/-- **A single element for which a chunk is cut** is adequate if the chunk is refused or, taken
exactly, ends in the address space; and only then, if the buffer is modest. -/
theorem chunk_adequate (T : ElementType) {arena : LinearArena} (ha : arena.InOrder)
    {pool : FixedBlockPool} {h : ArenaHeap} (hbegin : h.arena.begin_ = arena.begin_)
    (hend : h.arena.end_ = arena.end_) (hfree : pool.free = 0)
    (hper : pool.perChunk = blocksPerChunk)
    (hblk : pool.blkSize = (FixedBlockPool.new T.size blocksPerChunk).blkSize) {raw : ℕ}
    (hraw : (alignUp h.arena.cur target.maxAlign).toNat = raw % 2 ^ 64)
    (hge : arena.cur.toNat ≤ raw) (hnear : raw < arena.cur.toNat + 256) :
    ((h.arena.Refuses (UInt64.ofNat (chunkBytes T)) target.maxAlign
          ∨ raw + chunkBytes T < 2 ^ 64) →
        ∀ out, arena.Holds out →
          Adequate arena.begin_ arena.end_ out T.size.toNat (pool.allocate target h).1)
      ∧ (arena.Modest → (∀ out, arena.Holds out →
          Adequate arena.begin_ arena.end_ out T.size.toNat (pool.allocate target h).1) →
        h.arena.Refuses (UInt64.ofNat (chunkBytes T)) target.maxAlign
          ∨ raw + chunkBytes T < 2 ^ 64) := by
  by_cases hrefuses : h.arena.Refuses (UInt64.ofNat (chunkBytes T)) target.maxAlign
  · rw [(allocate_of_empty T hfree hper hblk).1 hrefuses]
    exact ⟨fun _ _ _ _ hp => absurd hp (Option.some_ne_none _).symm, fun _ _ => Or.inl hrefuses⟩
  · have hiff := chunk_adequate_iff T ha hend hfree hper hblk hrefuses rfl
    obtain ⟨hsufficient, hnecessary⟩ := lastBlock_iff T hraw hge hrefuses rfl
    refine ⟨fun h => hiff.mpr (hsufficient (h.resolve_left hrefuses)),
      fun hmodest hadequate => Or.inr ?_⟩
    obtain ⟨hused, hle⟩ := hiff.mp hadequate
    have hmodest' : h.arena.Modest := by
      unfold LinearArena.Modest at hmodest ⊢
      rwa [hbegin, hend]
    exact hnecessary hmodest' (by rw [hbegin]; exact ha.1) hnear hused hle

variable [DecidableEq ν]

/-- A call of `allocate`, where the pool is there. -/
theorem allocate_of_pool {setup : AllocatorSetup θ} {pool : FixedBlockPool} (x : ν)
    (hne : a.pool ≠ 0) (hpool : s.pools a.pool = some pool) :
    (Allocators.allocate setup s x a 1).1 = (pool.allocate setup.toTarget s.heap).1 := by
  simp [Allocators.allocate, ensurePool, hne, allocateFrom, hpool]

/-- The allocators, after one has made its pool. -/
def withPool (setup : AllocatorSetup θ) (s : Allocators ν θ) (x : ν) (a : PoolAllocator θ) :
    Allocators ν θ :=
  ((s.setArena (pastPoolObject setup.toTarget s.heap.arena)).setPool
    (alignUp s.heap.arena.cur poolAlign)
    (⟨pastPoolObject setup.toTarget s.heap.arena, s.heap.memory⟩,
      .new (setup.sizeOf a.type) blocksPerChunk)).set x
    (some { a with pool := alignUp s.heap.arena.cur poolAlign })

theorem pools_withPool (setup : AllocatorSetup θ) (s : Allocators ν θ) (x : ν)
    (a : PoolAllocator θ) : (withPool setup s x a).pools (alignUp s.heap.arena.cur poolAlign)
      = some (.new (setup.sizeOf a.type) blocksPerChunk) := by
  rw [withPool, pools_set, pools_setPool_self]

/-- `ensure_pool` of an allocator that has none. -/
theorem ensurePool_first (setup : AllocatorSetup θ) (x : ν) (hnone : a.pool = 0)
    (hgranted : ¬ s.heap.arena.Refuses setup.poolSize poolAlign) :
    ensurePool setup s x a
      = (some (alignUp s.heap.arena.cur poolAlign), withPool setup s x a) := by
  obtain ⟨hne, hheader⟩ := LinearArena.allocate_of_not_refuses hgranted
  simp only [ensurePool, hnone, ne_eq, not_true_eq_false, if_false, hheader, hne]
  rfl

/-- A call of `allocate` that makes the pool. -/
theorem allocate_first {setup : AllocatorSetup θ} (x : ν) (hnone : a.pool = 0)
    (hgranted : ¬ s.heap.arena.Refuses setup.poolSize poolAlign) :
    (Allocators.allocate setup s x a 1).1
      = ((FixedBlockPool.new (setup.sizeOf a.type) blocksPerChunk).allocate setup.toTarget
        ⟨pastPoolObject setup.toTarget s.heap.arena, s.heap.memory⟩).1 := by
  simp only [Allocators.allocate, if_true, ensurePool_first setup x hnone hgranted, allocateFrom,
    pools_withPool]
  rfl

/-- Where the chunk behind a new pool object begins, exactly. -/
theorem alignUp_pastPoolObject (target : Target) (arena : LinearArena) :
    (alignUp (pastPoolObject target arena).cur target.maxAlign).toNat
      = roundUp (roundUp arena.cur.toNat poolAlign.toNat + target.poolSize.toNat)
        target.maxAlign.toNat % 2 ^ 64 := by
  have hcur : (pastPoolObject target arena).cur.toNat
      = (roundUp arena.cur.toNat poolAlign.toNat + target.poolSize.toNat) % 2 ^ 64 :=
    toNat_alignUp_add ⟨3, rfl⟩
  rw [toNat_alignUp target.isPowerOfTwo, hcur,
    roundUp_mod target.isPowerOfTwo.pos target.isPowerOfTwo.dvd]

/-- **The first single element**, for which the pool has to be made. -/
theorem adequate_first (hs : InOrder types s a) (x : ν) (hpool : a.pool = 0) :
    (Guarded target types s a 1 → ∀ out, Holds s a out →
        Adequate s.heap.arena.begin_ s.heap.arena.end_ out (types a.type).size.toNat
          (Allocators.allocate (ElementType.setup types target mem size) s x a 1).1)
      ∧ (s.heap.arena.Modest → (∀ out, Holds s a out →
        Adequate s.heap.arena.begin_ s.heap.arena.end_ out (types a.type).size.toNat
          (Allocators.allocate (ElementType.setup types target mem size) s x a 1).1) →
        Guarded target types s a 1) := by
  have hholds : ∀ out, Holds s a out ↔ s.heap.arena.Holds out :=
    fun out => ⟨Holds.arena, fun h => ⟨h, fun hne => absurd hpool hne⟩⟩
  simp only [hholds]
  by_cases hrefuses : s.heap.arena.Refuses target.poolSize poolAlign
  · have hthrows : (Allocators.allocate (ElementType.setup types target mem size) s x a 1).1
        = none := by
      have hzero : (s.heap.arena.allocate (ElementType.setup types target mem size).poolSize
        poolAlign).1 = 0 := LinearArena.allocate_of_refuses hrefuses
      simp [Allocators.allocate, ensurePool, hpool, hzero]
    rw [hthrows]
    exact ⟨fun _ _ _ _ hp => absurd hp (Option.some_ne_none _).symm, fun _ _ =>
      ⟨fun hne => absurd rfl hne, fun _ _ => Or.inl hrefuses, fun _ hne => absurd hpool hne⟩⟩
  · have hresult : (Allocators.allocate (ElementType.setup types target mem size) s x a 1).1
        = ((FixedBlockPool.new (types a.type).size blocksPerChunk).allocate target
          ⟨pastPoolObject target s.heap.arena, s.heap.memory⟩).1 := allocate_first x hpool hrefuses
    have hheader : IsPowerOfTwo poolAlign := ⟨3, rfl⟩
    have hge := le_roundUp (x := s.heap.arena.cur.toNat) hheader.pos
    have hlt := roundUp_lt (x := s.heap.arena.cur.toNat) hheader.pos
    have hge' := le_roundUp (x := roundUp s.heap.arena.cur.toNat poolAlign.toNat
      + target.poolSize.toNat) target.isPowerOfTwo.pos
    have hlt' := roundUp_lt (x := roundUp s.heap.arena.cur.toNat poolAlign.toNat
      + target.poolSize.toNat) target.isPowerOfTwo.pos
    have halign : poolAlign.toNat = 8 := rfl
    have hmax := target.maxAlign_le
    have hsize := target.poolSize_le
    have hfree : (FixedBlockPool.new (types a.type).size blocksPerChunk).free = 0 := rfl
    obtain ⟨hsufficient, hnecessary⟩ := chunk_adequate (types a.type) hs.arena
      (h := ⟨pastPoolObject target s.heap.arena, s.heap.memory⟩) rfl rfl hfree rfl rfl
      (alignUp_pastPoolObject target s.heap.arena) (by omega) (by omega)
    rw [hresult]
    refine ⟨fun h => hsufficient ((h.first rfl hpool).resolve_left hrefuses),
      fun hmodest hadequate => ⟨fun hne => absurd rfl hne,
        fun _ _ => Or.inr (hnecessary hmodest hadequate), fun _ hne => absurd hpool hne⟩⟩

/-- **A single element**, of an allocator that has its pool. -/
theorem adequate_next (hs : InOrder types s a) (x : ν) (hpool : a.pool ≠ 0) :
    (Guarded target types s a 1 → ∀ out, Holds s a out →
        Adequate s.heap.arena.begin_ s.heap.arena.end_ out (types a.type).size.toNat
          (Allocators.allocate (ElementType.setup types target mem size) s x a 1).1)
      ∧ (s.heap.arena.Modest → (∀ out, Holds s a out →
        Adequate s.heap.arena.begin_ s.heap.arena.end_ out (types a.type).size.toNat
          (Allocators.allocate (ElementType.setup types target mem size) s x a 1).1) →
        Guarded target types s a 1) := by
  obtain ⟨pool, hpools, hblk, hper, hfirst⟩ := hs.pool hpool
  have hguarded : Guarded target types s a 1 ↔ (pool.free = 0 →
      s.heap.arena.Guards (chunkBytes (types a.type)) target.maxAlign) := by
    rw [← poolAt_of_some hpools]
    exact ⟨fun h => h.next rfl hpool, fun h => ⟨fun hne => absurd rfl hne,
      fun _ heq => absurd heq hpool, fun _ _ => h⟩⟩
  rw [hguarded, allocate_of_pool x hpool hpools]
  by_cases hfree : pool.free = 0
  · have hholds : ∀ out, Holds s a out ↔ s.heap.arena.Holds out :=
      fun out => ⟨Holds.arena, fun h => ⟨h, fun _ pool' hpools' hne => by
        obtain rfl : pool = pool' := Option.some.inj (hpools.symm.trans hpools')
        exact absurd hfree hne⟩⟩
    have hge := le_roundUp (x := s.heap.arena.cur.toNat) target.isPowerOfTwo.pos
    have hlt := roundUp_lt (x := s.heap.arena.cur.toNat) target.isPowerOfTwo.pos
    have hmax := target.maxAlign_le
    simp only [hholds, hfree, forall_const]
    exact chunk_adequate (types a.type) hs.arena rfl rfl hfree hper hblk
      (toNat_alignUp target.isPowerOfTwo) hge (by omega)
  · -- the block in front of the list is large enough for an element
    refine ⟨fun _ out hout p hp => ?_, fun _ _ h => absurd h hfree⟩
    simp only [FixedBlockPool.allocate, if_neg hfree, pop] at hp
    obtain rfl := Option.some.inj hp
    have hle : (types a.type).size.toNat ≤ pool.blkSize.toNat := by
      rw [hblk, AllocatorClients.toNat_blkSize_new]
      exact Nat.le_max_left _ _
    have hinside := hfirst hfree
    have hcur := hs.arena.2
    refine ⟨hinside.1, by omega, fun b hb => ?_⟩
    exact (hout.free hpool pool hpools hfree b hb).mono_right
      (Set.Ico_subset_Ico_right (by dsimp only; omega))

/-- **An array**, which is asked of the arena. -/
theorem adequate_array_iff (hs : InOrder types s a) (x : ν) {n : UInt64} (hn : n ≠ 1) :
    (∀ out, Holds s a out →
        Adequate s.heap.arena.begin_ s.heap.arena.end_ out ((types a.type).bytes n)
          (Allocators.allocate (ElementType.setup types target mem size) s x a n).1)
      ↔ Guarded target types s a n := by
  have hguarded : Guarded target types s a n
      ↔ s.heap.arena.Guards ((types a.type).bytes n) (types a.type).align :=
    ⟨fun h => h.array hn, fun h => ⟨fun _ => h, fun hone => absurd hone hn,
      fun hone => absurd hone hn⟩⟩
  have hresult : (Allocators.allocate (ElementType.setup types target mem size) s x a n).1
      = LinearArena.orThrow (s.heap.arena.allocate (UInt64.ofNat ((types a.type).bytes n))
        (types a.type).align).1 := by
    rw [ElementType.ofNat_bytes]
    simp only [Allocators.allocate, if_neg hn]
    rfl
  rw [hguarded, hresult]
  refine ⟨fun h => ?_, fun h out hout => ?_⟩
  · have hempty : Holds s a ∅ := ⟨fun _ hb => absurd hb id, fun _ _ _ _ _ hb => absurd hb id⟩
    exact (LinearArena.adequate_iff hs.arena hempty.arena (types a.type).isPowerOfTwo _).mp
      (h ∅ hempty)
  · exact (LinearArena.adequate_iff hs.arena hout.arena (types a.type).isPowerOfTwo _).mpr h

/-- **`pool_allocator` is adequate if the call meets the condition**, and only then if it is for an
array, or the buffer is modest. -/
theorem adequate_of_guarded (hs : InOrder types s a) (x : ν) (n : UInt64) :
    (Guarded target types s a n → ∀ out, Holds s a out →
        Adequate s.heap.arena.begin_ s.heap.arena.end_ out ((types a.type).bytes n)
          (Allocators.allocate (ElementType.setup types target mem size) s x a n).1)
      ∧ ((n = 1 → s.heap.arena.Modest) → (∀ out, Holds s a out →
        Adequate s.heap.arena.begin_ s.heap.arena.end_ out ((types a.type).bytes n)
          (Allocators.allocate (ElementType.setup types target mem size) s x a n).1) →
        Guarded target types s a n) := by
  by_cases hn : n = 1
  · subst hn
    have hone : (types a.type).bytes 1 = (types a.type).size.toNat := Nat.one_mul _
    rw [hone]
    by_cases hpool : a.pool = 0
    · obtain ⟨hsufficient, hnecessary⟩ := adequate_first hs x hpool
      exact ⟨hsufficient, fun hmodest => hnecessary (hmodest rfl)⟩
    · obtain ⟨hsufficient, hnecessary⟩ := adequate_next hs x hpool
      exact ⟨hsufficient, fun hmodest => hnecessary (hmodest rfl)⟩
  · exact ⟨(adequate_array_iff hs x hn).mpr, fun _ => (adequate_array_iff hs x hn).mp⟩

/-! ### Runs -/

/-- Without wraparound the condition is met. -/
theorem guarded_of_noWrap {x : ν} {n : UInt64} (hs : InOrder types s a)
    (hexact : NoWrap (ElementType.setup types target mem size) s x a n) :
    Guarded target types s a n where
  array hn := Or.inr (hexact.array hn)
  first hn hpool := by
    by_cases hrefuses : s.heap.arena.Refuses target.poolSize poolAlign
    · exact Or.inl hrefuses
    · have hensure := ensurePool_first (ElementType.setup types target mem size) x hpool hrefuses
      have hpools := pools_withPool (ElementType.setup types target mem size) s x a
      have hlt := hexact.chunk hn _ _ hensure (by rw [poolAt_of_some hpools]; rfl)
      rw [poolAt_of_some hpools, AllocatorClients.toNat_blkSize_new] at hlt
      have hcur : (pastPoolObject target s.heap.arena).cur.toNat
          = roundUp s.heap.arena.cur.toNat poolAlign.toNat + target.poolSize.toNat := by
        show (alignUp s.heap.arena.cur poolAlign + target.poolSize).toNat = _
        rw [toNat_alignUp_add ⟨3, rfl⟩]
        exact Nat.mod_eq_of_lt (hexact.header hn hpool)
      refine Or.inr (Or.inr ?_)
      rw [← hcur]
      exact hlt
  next hn hpool hfree := by
    obtain ⟨pool, hpools, hblk, hper, -⟩ := hs.pool hpool
    have hensure : ensurePool (ElementType.setup types target mem size) s x a
        = (some a.pool, s) := if_pos hpool
    have hlt := hexact.chunk hn a.pool s hensure hfree
    rw [poolAt_of_some hpools, hblk, hper, AllocatorClients.toNat_blkSize_new] at hlt
    exact Or.inr hlt

end PoolAllocator

namespace AllocatorClients

open Allocators FixedBlockPool

variable {ν θ : Type} {types : θ → ElementType} {target : Target} {mem size : UInt64}
  {s : AllocatorClients ν θ} {x : ν} {a : PoolAllocator θ}
  {blockSize : UInt64 → UInt64} {direct : List ArenaBlock}

/-- The first free block of a pool is one that it has cut, and not handed out. -/
theorem free_spec {setup : AllocatorSetup θ} {s : Allocators ν θ}
    (hs : Ordered setup s blockSize direct) {q : UInt64} {pool : FixedBlockPool}
    (hq : s.pools q = some pool) (hfree : pool.free ≠ 0) :
    pool.free ∈ pool.carved ∧ ∀ p ∈ pool.out, p ∈ pool.carved ∧ pool.free ≠ p
      ∧ Apart p pool.blkSize pool.free pool.blkSize := by
  obtain ⟨free, hshape⟩ := hs.shape hq
  obtain ⟨rest, heq, -⟩ := hshape.pop s.heap.arena hfree
  have hmem : pool.free ∈ free := heq ▸ List.mem_cons_self
  refine ⟨hshape.mem_carved_of_free hmem, fun p hp => ?_⟩
  have hne := hshape.ne_of_free_out hmem hp
  have hp' := hshape.mem_carved_of_out hp
  exact ⟨hp', hne, hshape.apart p hp' _ (hshape.mem_carved_of_free hmem) (Ne.symm hne)⟩

/-- **The allocators of a run are in order.** -/
theorem Inv.inOrder (hsetup : AllocatorSetup.Placed (ElementType.setup types target mem size))
    (hi : Inv (ElementType.setup types target mem size) s)
    (ha : s.allocators.allocator x = some a) : PoolAllocator.InOrder types s.allocators a := by
  obtain ⟨blockSize, direct, hs, -⟩ := hi
  have hbegin : s.allocators.heap.arena.begin_ = mem := hs.pools.begin_
  have hend := hs.pools.toNat_end (hsetup.proper _)
  refine ⟨⟨?_, ?_⟩, fun hne => ?_⟩
  · rw [hbegin]
    exact hs.pools.le_cur
  · exact Nat.le_trans hs.pools.cur_le (Nat.le_of_eq hend.symm)
  · obtain ⟨pool, hpool, hblk⟩ := hs.refers x a ha hne
    refine ⟨pool, hpool, hblk, hs.perChunk hpool, fun hfree => ?_⟩
    rw [hbegin]
    exact hs.inside hpool (free_spec hs hpool hfree).1

/-- **What is handed out in a run is storage that an allocator may find handed out.** -/
theorem Inv.holds (hi : Inv (ElementType.setup types target mem size) s) (a : PoolAllocator θ) :
    PoolAllocator.Holds s.allocators a s.handedOut := by
  obtain ⟨blockSize, direct, hs, harrays⟩ := hi
  have hbegin : s.allocators.heap.arena.begin_ = mem := hs.pools.begin_
  refine ⟨?_, fun hne pool hpool hfree => ?_⟩
  · rintro b (hb | ⟨q, pool, hpool, hout, hbytes⟩)
    · rw [hbegin]
      exact hs.pools.insideDirect b (harrays hb)
    · rw [hbegin, hbytes]
      exact hs.inside hpool (hs.mem_carved hpool hout)
  · obtain ⟨hmem, hout⟩ := free_spec hs hpool hfree
    rintro b (hb | ⟨q, pool', hpool', hout', hbytes⟩)
    · have hapart := hs.pools.apartDirect b (harrays hb) a.pool pool.free
      rw [pool_asPools hpool] at hapart
      exact Pools.disjoint_range (hapart hmem)
    · have hrange : b.range = ArenaBlock.range ⟨b.addr, pool'.blkSize⟩ := by
        rw [← hbytes]
      rw [hrange]
      by_cases hq : q = a.pool
      · subst hq
        obtain rfl : pool = pool' := Option.some.inj (hpool.symm.trans hpool')
        exact Pools.disjoint_range (hout b.addr hout').2.2
      · have hapart := hs.pools.apart q a.pool hq b.addr
        rw [pool_asPools hpool', pool_asPools hpool] at hapart
        exact Pools.disjoint_range (hapart (hs.mem_carved hpool' hout') pool.free hmem)

/-- **In every run without wraparound, every call of `allocate` is adequate**, with what was handed
out in the run. -/
theorem adequate_of_reachable [DecidableEq ν] [DecidableEq θ]
    (hsetup : AllocatorSetup.Placed (ElementType.setup types target mem size)) {m : Memory}
    (hs : (machine (ElementType.setup types target mem size) m).ReachableBy
      (Permitted (ElementType.setup types target mem size)) s)
    (ha : s.allocators.allocator x = some a) {n : UInt64}
    (hexact : NoWrap (ElementType.setup types target mem size) s.allocators x a n) :
    Adequate s.allocators.heap.arena.begin_ s.allocators.heap.arena.end_ s.handedOut
      ((types a.type).bytes n)
      (allocate (ElementType.setup types target mem size) s.allocators x a n).1 := by
  have hi := inv_of_reachable hsetup hs
  have horder := hi.inOrder hsetup ha
  exact (PoolAllocator.adequate_of_guarded horder x n).1
    (PoolAllocator.guarded_of_noWrap horder hexact) s.handedOut (hi.holds a)

end AllocatorClients

/-! ## The three adapters -/

namespace AllocatorAdapters

variable {ν θ : Type} [DecidableEq ν]

/-- **The allocator adapters return enough memory or throw where the condition of each is met**:
from every state whose cursor is in the buffer, for every element type and every number of
elements, and whatever storage that the state allows is handed out. They do so only there; for
single elements of `pool_allocator`, over modest buffers. -/
theorem adequate_iff_guarded :
    (∀ (T : ElementType) (arena : LinearArena) (n : UInt64), arena.InOrder →
        ((∀ out, arena.Holds out → Adequate arena.begin_ arena.end_ out (T.bytes n)
          (LinearAllocator.allocate T arena n).1) ↔ LinearAllocator.Guarded T arena n))
      ∧ (∀ (N : UInt64) (T : ElementType) (arena : StackArena N) (n : UInt64),
        arena.linear.InOrder →
        ((∀ out, arena.linear.Holds out → Adequate arena.linear.begin_ arena.linear.end_ out
          (T.bytes n) (StackAllocator.allocate T arena n).1) ↔ StackAllocator.Guarded T arena n))
      ∧ ∀ (target : Target) (types : θ → ElementType) (mem size : UInt64) (s : Allocators ν θ)
        (x : ν) (a : PoolAllocator θ) (n : UInt64), PoolAllocator.InOrder types s a →
        (PoolAllocator.Guarded target types s a n → ∀ out, PoolAllocator.Holds s a out →
          Adequate s.heap.arena.begin_ s.heap.arena.end_ out ((types a.type).bytes n)
            (Allocators.allocate (ElementType.setup types target mem size) s x a n).1)
        ∧ ((n = 1 → s.heap.arena.Modest) → (∀ out, PoolAllocator.Holds s a out →
          Adequate s.heap.arena.begin_ s.heap.arena.end_ out ((types a.type).bytes n)
            (Allocators.allocate (ElementType.setup types target mem size) s x a n).1) →
          PoolAllocator.Guarded target types s a n) := by
  have hempty : ∀ arena : LinearArena, arena.Holds ∅ := fun _ _ hb => absurd hb id
  refine ⟨fun T arena n ha => ⟨fun h => ?_, fun h out hout => ?_⟩,
    fun N T arena n ha => ⟨fun h => ?_, fun h out hout => ?_⟩,
    fun target types mem size s x a n hs => PoolAllocator.adequate_of_guarded hs x n⟩
  · exact (LinearAllocator.adequate_iff T n ha (hempty arena)).mp (h ∅ (hempty arena))
  · exact (LinearAllocator.adequate_iff T n ha hout).mpr h
  · exact (StackAllocator.adequate_iff T n ha (hempty _)).mp (h ∅ (hempty _))
  · exact (StackAllocator.adequate_iff T n ha hout).mpr h

/-- Bytes. -/
def byteType : ElementType := ⟨1, 1, by decide, ⟨0, rfl⟩, by decide⟩

/-- Pairs of words. -/
def pairType : ElementType :=
  ⟨16, 8, AllocatorClients.alignedPair.pos, Target.windows.isPowerOfTwo, by decide⟩

/-- An arena of 64 bytes, of which eight have been handed out. -/
def eightTaken : LinearArena := ⟨4096, 4104, 4160⟩

/-- A pool allocator over an arena of eight kilobytes. -/
def pairAllocators : Allocators ℕ Unit :=
  (Allocators.new (ElementType.setup (fun _ => pairType) .linux 4096 8192) (fun _ => 0)).set 0
    (some (.new ()))

/-- Three pairs are handed out by each adapter, behind what is handed out; and a single pair by
`pool_allocator`, behind the pool object that it makes. -/
theorem adequate_iff_guarded_pairs :
    (LinearAllocator.allocate pairType eightTaken 3).1 = some 4104
      ∧ (∀ out, eightTaken.Holds out → Adequate 4096 4160 out 48 (some 4104))
      ∧ (∀ out, (StackArena.new 4096 : StackArena 64).linear.Holds out →
        Adequate 4096 4160 out 48 (some 4096))
      ∧ (∀ out, PoolAllocator.Holds pairAllocators (.new ()) out →
        Adequate 4096 12288 out 48 (some 4096))
      ∧ ∀ out, PoolAllocator.Holds pairAllocators (.new ()) out →
        Adequate 4096 12288 out 16 (some 8208) := by
  obtain ⟨hlinear, hstack, hpool⟩ := adequate_iff_guarded (ν := ℕ) (θ := Unit)
  have horder : PoolAllocator.InOrder (fun _ => pairType) pairAllocators (.new ()) :=
    ⟨by decide, fun hne => absurd rfl hne⟩
  refine ⟨by decide, ?_, ?_, ?_, ?_⟩
  · exact (hlinear pairType eightTaken 3 (by decide)).mpr (Or.inr (Or.inr (by decide)))
  · exact (hstack 64 pairType (StackArena.new 4096) 3 (by decide)).mpr (Or.inr (by decide))
  · exact (hpool .linux (fun _ => pairType) 4096 8192 pairAllocators 0 (.new ()) 3 horder).1
      ⟨fun _ => Or.inr (by decide), fun hone => absurd hone (by decide),
        fun hone => absurd hone (by decide)⟩
  · exact (hpool .linux (fun _ => pairType) 4096 8192 pairAllocators 0 (.new ()) 1 horder).1
      ⟨fun hne => absurd rfl hne, fun _ _ => Or.inr (Or.inr (by decide)),
        fun _ hne => absurd rfl hne⟩

/-- **Counts whose bytes wrap are granted.** `2 ^ 60` pairs are no bytes at all for
`stack_allocator` and `pool_allocator`, and are found at the cursor; and an arena with eight
bytes taken grants `2 ^ 64 - 8` more to `linear_allocator`. -/
theorem hugeCounts_granted :
    (StackAllocator.allocate pairType (StackArena.new 4096 : StackArena 64)
          1152921504606846976).1 = some 4096
      ∧ ¬ Adequate 4096 4160 ∅ (pairType.bytes 1152921504606846976) (some 4096)
      ∧ (Allocators.allocate (ElementType.setup (fun _ => pairType) .linux 4096 8192)
          pairAllocators 0 (.new ()) 1152921504606846976).1 = some 4096
      ∧ ¬ Adequate 4096 12288 ∅ (pairType.bytes 1152921504606846976) (some 4096)
      ∧ (LinearAllocator.allocate byteType eightTaken 18446744073709551608).1 = some 4104
      ∧ ¬ Adequate 4096 4160 ∅ (byteType.bytes 18446744073709551608) (some 4104) := by
  refine ⟨by decide, fun h => ?_, by decide, fun h => ?_, by decide, fun h => ?_⟩
  · exact absurd (h 4096 rfl).2.1 (by decide)
  · exact absurd (h 4096 rfl).2.1 (by decide)
  · exact absurd (h 4104 rfl).2.1 (by decide)

end AllocatorAdapters
