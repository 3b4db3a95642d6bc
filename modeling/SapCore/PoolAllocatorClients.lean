import SapCore.PoolAllocator

/-!
# What the clients of pool allocators hold

Beside the allocators and their pools, the machine here has what was handed out: single
elements, which a pool counts by itself, and arrays, which are taken of the arena and stay
taken. Clients write into what they hold. A block is given back to the pool it came from,
that is, through an allocator that is equal to the one that handed it out.

Allocators over one arena are pools over one arena (`asPools`): a pool that has not been
made yet is an empty one, an array and the pool object itself are direct allocations. So
the invariant of `Pools` is that of the allocators too, and each of their calls keeps it
because it is made of calls of the pools; only that a pool is made is new
(`Pools.Inv.renew`).
-/

open Alignment

/-- **An element type**, by its `sizeof` and its `alignof`. -/
structure ElementType where
  size : UInt64
  align : UInt64
  pos : 0 < size.toNat
  isPowerOfTwo : IsPowerOfTwo align
  dvd : align.toNat ∣ size.toNat

/-- Allocators for some element types, over the buffer at an address. -/
def ElementType.setup {θ : Type} (types : θ → ElementType) (target : Target)
    (mem size : UInt64) : AllocatorSetup θ :=
  ⟨target, fun t => (types t).size, fun t => (types t).align, mem, size⟩

/-! ## Where blocks are aligned -/

/-- **What an arena returns is aligned**, or null. -/
theorem LinearArena.dvd_allocate (a : LinearArena) (bytes : UInt64) {align : UInt64}
    (halign : IsPowerOfTwo align) : align.toNat ∣ (a.allocate bytes align).1.toNat := by
  unfold allocate bump
  dsimp only
  split
  · exact Nat.dvd_zero _
  · rw [toNat_alignUp halign]
    exact (Nat.dvd_mod_iff halign.dvd).mpr (dvd_roundUp _ _)

namespace FixedBlockPool

variable {raw blkSize : UInt64}

/-- A block is aligned as its chunk is, as far as the size of the blocks allows it. -/
theorem dvd_blockAt {d : ℕ} (hword : d ∣ 2 ^ 64) (hraw : d ∣ raw.toNat) (hblk : d ∣ blkSize.toNat)
    (i : ℕ) : d ∣ (blockAt raw blkSize i).toNat := by
  rw [blockAt, UInt64.toNat_add, UInt64.toNat_mul, Nat.dvd_mod_iff hword]
  exact Nat.dvd_add hraw ((Nat.dvd_mod_iff hword).mpr (Dvd.dvd.mul_left hblk _))

/-- **How the blocks of a pool lie**: they are aligned as far as its chunks and the size of its
blocks are, and a chunk of such blocks has a size that is a word. -/
structure WellCut (target : Target) (pool : FixedBlockPool) : Prop where
  aligned : ∀ d, d ∣ target.maxAlign.toNat → d ∣ pool.blkSize.toNat →
    ∀ p ∈ pool.carved, d ∣ p.toNat
  fits : pool.carved ≠ [] → pool.blkSize.toNat * pool.perChunk.toNat < 2 ^ 64

theorem wellCut_new (target : Target) (blockSize blocksPerChunk : UInt64) :
    WellCut target (new blockSize blocksPerChunk) where
  aligned _ _ _ _ hp := absurd hp List.not_mem_nil
  fits hne := absurd rfl hne

variable {target : Target} {pool : FixedBlockPool}

/-- What `allocate` keeps of a pool, and what it does to its blocks. -/
theorem carved_allocate (target : Target) (h : ArenaHeap) (pool : FixedBlockPool) :
    (pool.allocate target h).2.2.blkSize = pool.blkSize
      ∧ (pool.allocate target h).2.2.perChunk = pool.perChunk
      ∧ ((pool.allocate target h).2.2.carved = pool.carved
        ∨ pool.free = 0 ∧ ∃ raw, target.maxAlign.toNat ∣ raw.toNat
          ∧ (pool.allocate target h).2.2.carved
            = pool.carved ++ chunkBlocks raw pool.blkSize pool.perChunk.toNat) := by
  unfold allocate addChunk
  dsimp only
  by_cases hfree : pool.free = 0
  · by_cases hzero : (h.arena.allocate (pool.blkSize * pool.perChunk) target.maxAlign).1 = 0
    · simp [hfree, hzero]
    · refine ⟨by simp [hfree, hzero, pop, cut], by simp [hfree, hzero, pop, cut],
        Or.inr ⟨hfree, _,
          h.arena.dvd_allocate (pool.blkSize * pool.perChunk) target.isPowerOfTwo, ?_⟩⟩
      simp [hfree, hzero, pop, cut]
  · simp [hfree, pop]

/-- What `allocate` does where a chunk is cut. -/
theorem allocate_of_chunk {h : ArenaHeap} {arena : LinearArena}
    (hfree : pool.free = 0) (hraw : raw ≠ 0)
    (hchunk : h.arena.allocate (pool.blkSize * pool.perChunk) target.maxAlign = (raw, arena)) :
    pool.allocate target h = pop target.host
      ⟨arena, (pool.cut target.host h.memory raw).1⟩ (pool.cut target.host h.memory raw).2 := by
  simp [allocate, hfree, addChunk, hchunk, hraw]

theorem WellCut.allocate (hp : WellCut target pool) (h : ArenaHeap)
    (hfits : pool.free = 0 → pool.blkSize.toNat * pool.perChunk.toNat < 2 ^ 64) :
    WellCut target (pool.allocate target h).2.2 := by
  obtain ⟨hblk, hper, hsame | ⟨hfree, raw, hraw, hmore⟩⟩ := carved_allocate target h pool
  · refine ⟨?_, ?_⟩
    · rw [hblk, hsame]
      exact hp.aligned
    · rw [hblk, hper, hsame]
      exact hp.fits
  · refine ⟨fun d hd hd' p hmem => ?_, fun _ => ?_⟩
    · rw [hblk] at hd'
      rw [hmore, List.mem_append] at hmem
      obtain hold | hnew := hmem
      · exact hp.aligned d hd hd' p hold
      · obtain ⟨i, -, rfl⟩ := List.mem_map.mp hnew
        exact dvd_blockAt (Nat.dvd_trans hd target.isPowerOfTwo.dvd) (Nat.dvd_trans hd hraw) hd' i
    · rw [hblk, hper]
      exact hfits hfree

/-- What `deallocate` keeps of a pool. -/
theorem carved_deallocate (host : ByteOrder) (h : ArenaHeap) (pool : FixedBlockPool)
    (p : UInt64) :
    (pool.deallocate host h p).2.blkSize = pool.blkSize
      ∧ (pool.deallocate host h p).2.perChunk = pool.perChunk
      ∧ (pool.deallocate host h p).2.carved = pool.carved := by
  unfold deallocate
  split
  · exact ⟨rfl, rfl, rfl⟩
  · exact ⟨rfl, rfl, rfl⟩

theorem WellCut.deallocate (hp : WellCut target pool) (h : ArenaHeap) (p : UInt64) :
    WellCut target (pool.deallocate target.host h p).2 := by
  obtain ⟨hblk, hper, hcarved⟩ := carved_deallocate target.host h pool p
  refine ⟨?_, ?_⟩
  · rw [hblk, hcarved]
    exact hp.aligned
  · rw [hblk, hper, hcarved]
    exact hp.fits

end FixedBlockPool

/-! ## Making a pool -/

/-- **A pool that has no blocks may be made anew**, for blocks of another size. -/
theorem Pools.Inv.renew {ι : Type} [DecidableEq ι] {setup : PoolSetup ι} {s : Pools ι}
    (hs : Pools.Inv setup s) {i : ι} (hnil : (s.pool i).carved = []) (size : UInt64)
    (hper : 1 ≤ (setup.blocksPerChunk i).toNat) :
    Pools.Inv { setup with blockSize := Function.update setup.blockSize i size }
      { s with pool := Function.update s.pool i (.new size (setup.blocksPerChunk i)) } := by
  have hcarved : ∀ j, ∀ p ∈ (Function.update s.pool i
      (.new size (setup.blocksPerChunk i)) j).carved, j ≠ i ∧ p ∈ (s.pool j).carved := by
    intro j p hp
    by_cases hj : j = i
    · subst hj
      rw [Function.update_self] at hp
      exact absurd hp List.not_mem_nil
    · rw [Function.update_of_ne hj] at hp
      exact ⟨hj, hp⟩
  refine {
    begin_ := hs.begin_
    end_ := hs.end_
    le_cur := hs.le_cur
    cur_le := hs.cur_le
    blkSize := fun j => ?_
    perChunk := fun j => ?_
    shape := ?_
    counted := ?_
    inside := fun j p hp => ?_
    apart := fun j k hjk p hp q hq => ?_
    insideDirect := hs.insideDirect
    apartDirect := fun d hd j p hp => ?_
    direct := hs.direct }
  · dsimp only
    by_cases hj : j = i
    · subst hj
      rw [Function.update_self, Function.update_self]
    · rw [Function.update_of_ne hj, Function.update_of_ne hj]
      exact hs.blkSize j
  · dsimp only
    by_cases hj : j = i
    · subst hj
      rw [Function.update_self]
      rfl
    · rw [Function.update_of_ne hj]
      exact hs.perChunk j
  · exact (Function.forall_update_iff s.pool (fun _ pool =>
      ∃ free, FixedBlockPool.Shape setup.host s.heap.memory pool free)).mpr
      ⟨⟨[], FixedBlockPool.shape_new size hper _⟩, fun j _ => hs.shape j⟩
  · exact (Function.forall_update_iff s.pool (fun _ pool => FixedBlockPool.Counted pool)).mpr
      ⟨FixedBlockPool.counted_new _ _, fun j _ => hs.counted j⟩
  · obtain ⟨hj, hp⟩ := hcarved j p hp
    dsimp only
    rw [Function.update_of_ne hj]
    exact hs.inside j p hp
  · obtain ⟨hj, hp⟩ := hcarved j p hp
    obtain ⟨hk, hq⟩ := hcarved k q hq
    dsimp only
    rw [Function.update_of_ne hj, Function.update_of_ne hk]
    exact hs.apart j k hjk p hp q hq
  · obtain ⟨hj, hp⟩ := hcarved j p hp
    dsimp only
    rw [Function.update_of_ne hj]
    exact hs.apartDirect d hd j p hp

/-! ## Allocators as pools -/

namespace Allocators

variable {ν θ : Type} {setup : AllocatorSetup θ} {s : Allocators ν θ}
  {blockSize : UInt64 → UInt64} {direct : List ArenaBlock}

/-- The pool at an address; one without blocks, if there is none. -/
def poolAt (s : Allocators ν θ) (q : UInt64) : FixedBlockPool :=
  (s.pools q).getD (.new 0 blocksPerChunk)

/-- **The pools of allocators**, with the direct allocations of their arena. -/
def asPools (s : Allocators ν θ) (direct : List ArenaBlock) : Pools UInt64 :=
  ⟨s.heap, poolAt s, direct⟩

/-- What they are made with. -/
def poolSetup (setup : AllocatorSetup θ) (blockSize : UInt64 → UInt64) : PoolSetup UInt64 :=
  ⟨setup.toTarget, blockSize, fun _ => blocksPerChunk, setup.mem, setup.size⟩

/-- The size of the blocks of a pool for an element type. -/
def blockSizeOf (setup : AllocatorSetup θ) (t : θ) : UInt64 :=
  (FixedBlockPool.new (setup.sizeOf t) blocksPerChunk).blkSize

@[simp] theorem pools_setPool_self (s : Allocators ν θ) (q : UInt64)
    (r : ArenaHeap × FixedBlockPool) : (s.setPool q r).pools q = some r.2 :=
  Function.update_self _ _ _

@[simp] theorem allocator_setPool (s : Allocators ν θ) (q : UInt64)
    (r : ArenaHeap × FixedBlockPool) : (s.setPool q r).allocator = s.allocator := rfl

@[simp] theorem pools_set [DecidableEq ν] (s : Allocators ν θ) (x : ν)
    (a : Option (PoolAllocator θ)) : (s.set x a).pools = s.pools := rfl

@[simp] theorem allocator_set_self [DecidableEq ν] (s : Allocators ν θ) (x : ν)
    (a : Option (PoolAllocator θ)) : (s.set x a).allocator x = a :=
  Function.update_self _ _ _

theorem poolAt_of_some {q : UInt64} {pool : FixedBlockPool} (hq : s.pools q = some pool) :
    poolAt s q = pool := by
  rw [poolAt, hq]
  rfl

theorem pool_asPools {q : UInt64} {pool : FixedBlockPool} (hq : s.pools q = some pool)
    (direct : List ArenaBlock) : (s.asPools direct).pool q = pool :=
  poolAt_of_some hq

theorem poolAt_setPool (s : Allocators ν θ) (q : UInt64) (r : ArenaHeap × FixedBlockPool) :
    poolAt (s.setPool q r) = Function.update (poolAt s) q r.2 := by
  funext i
  unfold poolAt setPool
  by_cases hi : i = q
  · subst hi
    simp only [Function.update_self, Option.getD_some]
  · simp only [Function.update_of_ne hi]

theorem asPools_setPool (s : Allocators ν θ) (q : UInt64) (r : ArenaHeap × FixedBlockPool)
    (direct : List ArenaBlock) :
    (s.setPool q r).asPools direct = (s.asPools direct).setPool q r := by
  unfold asPools
  rw [poolAt_setPool]
  rfl

/-- The setup is proper, and the end of the buffer is an address. -/
structure AllocatorSetup.Placed {θ : Type} (setup : AllocatorSetup θ) : Prop
    extends setup.Proper where
  fits : setup.mem.toNat + setup.size.toNat < 2 ^ 64

theorem AllocatorSetup.Placed.proper (hsetup : AllocatorSetup.Placed setup)
    (blockSize : UInt64 → UInt64) : Pools.PoolSetup.Proper (poolSetup setup blockSize) where
  perChunk _ := (by decide : 1 ≤ blocksPerChunk.toNat)
  fits := hsetup.fits
  nonnull := hsetup.nonnull

/-- **What runs keep**: the pools, with the direct allocations, are as pools over one arena are;
the pool objects are among the direct allocations; an allocator that has a pool refers to one
for its element type; and the pools are well cut. -/
structure Ordered (setup : AllocatorSetup θ) (s : Allocators ν θ) (blockSize : UInt64 → UInt64)
    (direct : List ArenaBlock) : Prop where
  pools : Pools.Inv (poolSetup setup blockSize) (s.asPools direct)
  headers : ∀ q pool, s.pools q = some pool → q ≠ 0 ∧ ⟨q, setup.poolSize⟩ ∈ direct
  refers : ∀ x a, s.allocator x = some a → a.pool ≠ 0 →
    ∃ pool, s.pools a.pool = some pool ∧ pool.blkSize = blockSizeOf setup a.type
  wellCut : ∀ q pool, s.pools q = some pool → pool.WellCut setup.toTarget

theorem ordered_new (hsetup : AllocatorSetup.Placed setup) (m : Memory) :
    Ordered setup (new setup m : Allocators ν θ) (fun _ => 0) [] where
  pools := Pools.inv_new (hsetup.proper _) m
  headers _ _ hq := by cases hq
  refers _ _ ha := by cases ha
  wellCut _ _ hq := by cases hq

namespace Ordered

variable (hs : Ordered setup s blockSize direct)

include hs

/-- A pool threads its free blocks, and has cut those that it handed out. -/
theorem shape {q : UInt64} {pool : FixedBlockPool} (hq : s.pools q = some pool) :
    ∃ free, FixedBlockPool.Shape setup.host s.heap.memory pool free := by
  have hshape := hs.pools.shape q
  rwa [pool_asPools hq] at hshape

theorem mem_carved {q p : UInt64} {pool : FixedBlockPool} (hq : s.pools q = some pool)
    (hp : p ∈ pool.out) : p ∈ pool.carved := by
  obtain ⟨free, hshape⟩ := hs.shape hq
  exact hshape.mem_carved_of_out hp

theorem perChunk {q : UInt64} {pool : FixedBlockPool} (hq : s.pools q = some pool) :
    pool.perChunk = blocksPerChunk := by
  have hper := hs.pools.perChunk q
  rwa [pool_asPools hq] at hper

/-- The blocks of a pool lie before the cursor of the arena. -/
theorem inside {q p : UInt64} {pool : FixedBlockPool} (hq : s.pools q = some pool)
    (hp : p ∈ pool.carved) :
    setup.mem.toNat ≤ p.toNat ∧ p.toNat + pool.blkSize.toNat ≤ s.heap.arena.cur.toNat := by
  have hinside := hs.pools.inside q p
  rw [pool_asPools hq] at hinside
  exact hinside hp

/-- A pool object lies before the cursor of the arena. -/
theorem pools_eq_none {q : UInt64} (hq : s.heap.arena.cur.toNat ≤ q.toNat) : s.pools q = none := by
  cases hpool : s.pools q with
  | none => rfl
  | some pool =>
    have hinside := (hs.pools.insideDirect _ (hs.headers q pool hpool).2).2
    have hsize := setup.le_poolSize
    have hcur : q.toNat + setup.poolSize.toNat ≤ s.heap.arena.cur.toNat := hinside
    omega

theorem null (hsetup : AllocatorSetup.Placed setup) (hcur : s.heap.arena.cur = 0) :
    s.heap.arena.end_ = 0 :=
  hs.pools.null (hsetup.proper _) hcur

/-- **Memory is taken of the arena.** -/
theorem setArena (hsetup : AllocatorSetup.Placed setup) {bytes align : UInt64}
    (halign : IsPowerOfTwo align)
    (hexact : roundUp s.heap.arena.cur.toNat align.toNat + bytes.toNat < 2 ^ 64) :
    Ordered setup (s.setArena (s.heap.arena.allocate bytes align).2) blockSize
      (if (s.heap.arena.allocate bytes align).1 = 0 then direct
        else ⟨(s.heap.arena.allocate bytes align).1, bytes⟩ :: direct) where
  pools := hs.pools.direct_step (hsetup.proper _) ⟨halign, hexact⟩
  headers q pool hq := by
    obtain ⟨hne, hmem⟩ := hs.headers q pool hq
    refine ⟨hne, ?_⟩
    split
    · exact hmem
    · exact List.mem_cons_of_mem _ hmem
  refers := hs.refers
  wellCut := hs.wellCut

/-- **A pool is made**, in memory that was taken for it. -/
theorem makePool {q : UInt64} (hq : q ≠ 0) (hnone : s.pools q = none)
    (hmem : ⟨q, setup.poolSize⟩ ∈ direct) (size : UInt64) :
    Ordered setup (s.setPool q (s.heap, .new size blocksPerChunk))
      (Function.update blockSize q size) direct where
  pools := by
    have hnil : ((s.asPools direct).pool q).carved = [] := by
      show (poolAt s q).carved = []
      rw [poolAt, hnone]
      rfl
    rw [asPools_setPool]
    exact hs.pools.renew hnil size (by decide : 1 ≤ blocksPerChunk.toNat)
  headers q' pool hpool := by
    by_cases hq' : q' = q
    · rw [hq']
      exact ⟨hq, hmem⟩
    · exact hs.headers q' pool ((Function.update_of_ne hq' _ _).symm.trans hpool)
  refers x a ha hpool := by
    obtain ⟨pool, hpool, hblk⟩ := hs.refers x a ha hpool
    have hne : a.pool ≠ q := fun heq => by
      rw [heq, hnone] at hpool
      cases hpool
    exact ⟨pool, (Function.update_of_ne hne _ _).trans hpool, hblk⟩
  wellCut := (Function.forall_update_iff s.pools (fun _ p => ∀ pool, p = some pool →
    pool.WellCut setup.toTarget)).mpr ⟨fun pool heq => by
      cases heq
      exact FixedBlockPool.wellCut_new _ _ _, fun q' _ => hs.wellCut q'⟩

/-- **A pool changes**, and keeps the size of its blocks. -/
theorem setPool {q : UInt64} {pool : FixedBlockPool} {r : ArenaHeap × FixedBlockPool}
    (hq : s.pools q = some pool) (hblk : r.2.blkSize = pool.blkSize)
    (hcut : r.2.WellCut setup.toTarget)
    (hpools : Pools.Inv (poolSetup setup blockSize) ((s.asPools direct).setPool q r)) :
    Ordered setup (s.setPool q r) blockSize direct where
  pools := by
    rw [asPools_setPool]
    exact hpools
  headers q' pool' hpool' := by
    by_cases hq' : q' = q
    · rw [hq']
      exact hs.headers q pool hq
    · exact hs.headers q' pool' ((Function.update_of_ne hq' _ _).symm.trans hpool')
  refers x a ha hpool := by
    obtain ⟨pool', hpool', hblk'⟩ := hs.refers x a ha hpool
    by_cases hq' : a.pool = q
    · rw [hq'] at hpool' ⊢
      obtain rfl : pool = pool' := Option.some.inj (hq.symm.trans hpool')
      exact ⟨r.2, pools_setPool_self s q r, hblk.trans hblk'⟩
    · exact ⟨pool', (Function.update_of_ne hq' _ _).trans hpool', hblk'⟩
  wellCut := (Function.forall_update_iff s.pools (fun _ p => ∀ pool, p = some pool →
    pool.WellCut setup.toTarget)).mpr ⟨fun pool' heq => by
      cases heq
      exact hcut, fun q' _ => hs.wellCut q'⟩

/-- **A client writes** into a block that is handed out, or into a direct allocation. -/
theorem write {x : ℕ} {byte : UInt8}
    (hpermitted : (s.asPools direct).Permitted (poolSetup setup blockSize) (.write x byte)) :
    Ordered setup { s with heap := { s.heap with memory := s.heap.memory.write x [byte] } }
      blockSize direct where
  pools := hs.pools.write hpermitted
  headers := hs.headers
  refers := hs.refers
  wellCut := hs.wellCut

variable [DecidableEq ν]

/-- **An allocator object is written.** -/
theorem set {x : ν} {a : Option (PoolAllocator θ)} (ha : ∀ b, a = some b → b.pool ≠ 0 →
    ∃ pool, s.pools b.pool = some pool ∧ pool.blkSize = blockSizeOf setup b.type) :
    Ordered setup (s.set x a) blockSize direct where
  pools := hs.pools
  headers := hs.headers
  refers := (Function.forall_update_iff s.allocator (fun _ a => ∀ b, a = some b → b.pool ≠ 0 →
    ∃ pool, s.pools b.pool = some pool ∧ pool.blkSize = blockSizeOf setup b.type)).mpr
      ⟨ha, fun y _ => hs.refers y⟩
  wellCut := hs.wellCut

/-! ## The calls -/

omit [DecidableEq ν] in
/-- **`allocate` of a pool.** -/
theorem allocateFrom (hsetup : AllocatorSetup.Placed setup) {q : UInt64} {pool : FixedBlockPool}
    (hq : s.pools q = some pool)
    (hexact : pool.free = 0 → roundUp s.heap.arena.cur.toNat setup.maxAlign.toNat
      + pool.blkSize.toNat * pool.perChunk.toNat < 2 ^ 64) :
    Ordered setup (Allocators.allocateFrom setup s q).2 blockSize direct
      ∧ ∀ p, (Allocators.allocateFrom setup s q).1 = some p →
        ∃ pool', (Allocators.allocateFrom setup s q).2.pools q = some pool' ∧ p ∈ pool'.out
          ∧ pool'.blkSize = pool.blkSize := by
  have hpool := pool_asPools hq direct
  have hpermitted : (s.asPools direct).Permitted (poolSetup setup blockSize) (.allocate q) := by
    show ((s.asPools direct).pool q).free = 0 → _
    rw [hpool]
    exact hexact
  have hpools := hs.pools.allocate (hsetup.proper _) hpermitted
  rw [hpool] at hpools
  have hblk := (FixedBlockPool.carved_allocate setup.toTarget s.heap pool).1
  simp only [Allocators.allocateFrom, hq]
  have hcut := (hs.wellCut q pool hq).allocate s.heap
    (fun hfree => Nat.lt_of_le_of_lt (Nat.le_add_left _ _) (hexact hfree))
  exact ⟨hs.setPool hq hblk hcut hpools,
    fun p hp => ⟨_, pools_setPool_self _ _ _,
      FixedBlockPool.out_allocate hp ▸ List.mem_cons_self, hblk⟩⟩

omit [DecidableEq ν] in
/-- **`deallocate` of an allocator**, of a block that its pool handed out. -/
theorem deallocate {a : PoolAllocator θ} {p n : UInt64}
    (hpermitted : n = 1 → a.pool ≠ 0 → p = 0 ∨ p ∈ (poolAt s a.pool).out) :
    Ordered setup (Allocators.deallocate setup s a p n) blockSize direct := by
  unfold Allocators.deallocate
  split
  · exact hs
  · split
    · rename_i hcall
      split
      · rename_i pool hpool
        have hpools := hs.pools.deallocate (hpermitted hcall.1 hcall.2)
        rw [pool_asPools hpool] at hpools
        exact hs.setPool hpool (FixedBlockPool.carved_deallocate setup.host s.heap pool p).1
          ((hs.wellCut a.pool pool hpool).deallocate s.heap p) hpools
      · exact hs
    · exact hs

/-- **`ensure_pool`** throws, or leaves a pool for the element type of the allocator. -/
theorem ensurePool (hsetup : AllocatorSetup.Placed setup) {x : ν} {a : PoolAllocator θ}
    (ha : s.allocator x = some a)
    (hexact : a.pool = 0 →
      roundUp s.heap.arena.cur.toNat poolAlign.toNat + setup.poolSize.toNat < 2 ^ 64) :
    Allocators.ensurePool setup s x a = (none, s)
      ∨ ∃ q s' blockSize' direct' pool, Allocators.ensurePool setup s x a = (some q, s')
        ∧ Ordered setup s' blockSize' direct' ∧ direct ⊆ direct'
        ∧ s'.pools q = some pool ∧ pool.blkSize = blockSizeOf setup a.type := by
  by_cases hpool : a.pool = 0
  · have hcases : BumpArena.Exact s.heap.arena.end_.toNat _ _ _ := Or.inl (hexact hpool)
    have harena := hs.setArena hsetup ⟨3, rfl⟩ (hexact hpool)
    obtain ⟨hne, hge, -, -⟩ | ⟨hzero, hsame⟩ := hcases.allocate_cases ⟨3, rfl⟩ (hs.null hsetup)
    · rw [if_neg hne] at harena
      have hmade := harena.makePool hne (hs.pools_eq_none hge) List.mem_cons_self
        (setup.sizeOf a.type)
      have hset := hmade.set (x := x) (a := some { a with pool := _ }) (fun b hb _ => by
        cases hb
        exact ⟨_, pools_setPool_self _ _ _, rfl⟩)
      refine Or.inr ⟨_, _, _, _, _, ?_, hset, List.subset_cons_self _ _,
        pools_setPool_self _ _ _, rfl⟩
      simp only [Allocators.ensurePool, hpool, ne_eq, not_true_eq_false, if_false, if_neg hne]
    · refine Or.inl ?_
      simp only [Allocators.ensurePool, hpool, ne_eq, not_true_eq_false, if_false, if_pos hzero,
        hsame]
      rfl
  · obtain ⟨pool, hpools, hblk⟩ := hs.refers x a ha hpool
    exact Or.inr ⟨a.pool, s, blockSize, direct, pool, if_pos hpool, hs, List.Subset.refl _,
      hpools, hblk⟩

end Ordered

variable [DecidableEq ν]

/-- **No sum or product of a call of `allocate` passes `2 ^ 64`.** -/
structure NoWrap (setup : AllocatorSetup θ) (s : Allocators ν θ) (x : ν) (a : PoolAllocator θ)
    (n : UInt64) : Prop where
  array : n ≠ 1 → roundUp s.heap.arena.cur.toNat (setup.alignOf a.type).toNat
    + n.toNat * (setup.sizeOf a.type).toNat < 2 ^ 64
  header : n = 1 → a.pool = 0 →
    roundUp s.heap.arena.cur.toNat poolAlign.toNat + setup.poolSize.toNat < 2 ^ 64
  chunk : n = 1 → ∀ q s', ensurePool setup s x a = (some q, s') → (poolAt s' q).free = 0 →
    roundUp s'.heap.arena.cur.toNat setup.maxAlign.toNat
      + (poolAt s' q).blkSize.toNat * (poolAt s' q).perChunk.toNat < 2 ^ 64

/-- **`allocate` of an allocator**: an array that it returns is a direct allocation, and a single
element a block of a pool for the element type. -/
theorem Ordered.allocate (hs : Ordered setup s blockSize direct)
    (hsetup : AllocatorSetup.Placed setup) {x : ν} {a : PoolAllocator θ} {n : UInt64}
    (ha : s.allocator x = some a) (hexact : NoWrap setup s x a n) :
    ∃ blockSize' direct', Ordered setup (allocate setup s x a n).2 blockSize' direct'
      ∧ direct ⊆ direct'
      ∧ ∀ p, (allocate setup s x a n).1 = some p →
        (n ≠ 1 → ⟨p, n * setup.sizeOf a.type⟩ ∈ direct')
          ∧ (n = 1 → ∃ q pool, (allocate setup s x a n).2.pools q = some pool ∧ p ∈ pool.out
            ∧ pool.blkSize = blockSizeOf setup a.type) := by
  by_cases hn : n = 1
  · subst hn
    obtain heq | ⟨q, s', blockSize', direct', pool, heq, hs', hsubset, hpool, hblk⟩ :=
      hs.ensurePool hsetup ha (hexact.header rfl)
    · have hallocate : Allocators.allocate setup s x a 1 = (none, s) := by
        simp only [Allocators.allocate, if_true, heq]
      rw [hallocate]
      exact ⟨blockSize, direct, hs, List.Subset.refl _, fun p hp => by cases hp⟩
    · have hallocate : Allocators.allocate setup s x a 1 = Allocators.allocateFrom setup s' q := by
        simp only [Allocators.allocate, if_true, heq]
      have hchunk := hexact.chunk rfl q s' heq
      rw [poolAt_of_some hpool] at hchunk
      obtain ⟨hs'', hout⟩ := hs'.allocateFrom hsetup hpool hchunk
      rw [hallocate]
      refine ⟨blockSize', direct', hs'', hsubset, fun p hp => ⟨fun h => absurd rfl h, fun _ => ?_⟩⟩
      obtain ⟨pool', hpool', hmem, hblk'⟩ := hout p hp
      exact ⟨q, pool', hpool', hmem, hblk'.trans hblk⟩
  · have hproduct := Nat.lt_of_le_of_lt (Nat.le_add_left _ _) (hexact.array hn)
    have hbytes : (n * setup.sizeOf a.type).toNat = n.toNat * (setup.sizeOf a.type).toNat := by
      rw [UInt64.toNat_mul, Nat.mod_eq_of_lt hproduct]
    have harray := hexact.array hn
    rw [← hbytes] at harray
    have hs' := hs.setArena hsetup (hsetup.alignOf a.type) harray
    simp only [Allocators.allocate, if_neg hn]
    refine ⟨blockSize, _, hs', ?_, fun p hp => ⟨fun _ => ?_, fun h => absurd h hn⟩⟩
    · split
      · exact List.Subset.refl _
      · exact List.subset_cons_self _ _
    · obtain ⟨hne, heq⟩ := Option.ite_none_left_eq_some.mp hp
      rw [if_neg hne, Option.some.inj heq]
      exact List.mem_cons_self

end Allocators

/-! ## Allocators and what was handed out -/

/-- **Allocators, and the arrays that were handed out.** -/
structure AllocatorClients (ν θ : Type) where
  allocators : Allocators ν θ
  arrays : List ArenaBlock

namespace AllocatorClients

open Allocators

variable {ν θ : Type} (setup : AllocatorSetup θ)

/-- What is done to the allocators, or a byte that a client writes. -/
inductive Label (ν θ : Type) where
  | call (label : Allocators.Label ν θ)
  | write (x : ℕ) (byte : UInt8)

/-- No allocators yet. -/
def new (m : Memory) : AllocatorClients ν θ := ⟨.new setup m, []⟩

variable [DecidableEq ν]

/-- The arrays, after something was done. -/
def arraysAfter (s : AllocatorClients ν θ) : Allocators.Label ν θ → List ArenaBlock
  | .allocate x n =>
    match s.allocators.allocator x with
    | some a =>
      match (allocate setup s.allocators x a n).1 with
      | some p => if n = 1 then s.arrays else ⟨p, n * setup.sizeOf a.type⟩ :: s.arrays
      | none => s.arrays
    | none => s.arrays
  | _ => s.arrays

variable [DecidableEq θ]

/-- **One step.** -/
def step (s : AllocatorClients ν θ) : Label ν θ → Option (AllocatorClients ν θ)
  | .call label => (s.allocators.step setup label).map (fun s' => ⟨s', arraysAfter setup s label⟩)
  | .write x byte => some
    { s with
      allocators :=
        { s.allocators with
          heap :=
            { s.allocators.heap with
              memory := s.allocators.heap.memory.write x [byte] } } }

/-- **Allocators and their clients, as a machine.** -/
def machine (m : Memory) : Machine (AllocatorClients ν θ) (Label ν θ) :=
  ⟨new setup m, step setup⟩

omit [DecidableEq ν] [DecidableEq θ] in
/-- **The storage that is handed out.** -/
def handedOut (s : AllocatorClients ν θ) : Set ArenaBlock :=
  {b | b ∈ s.arrays ∨ ∃ q pool, s.allocators.pools q = some pool ∧ b.addr ∈ pool.out
    ∧ b.bytes = pool.blkSize}

omit [DecidableEq θ] in
/-- **What callers owe**: a single element is given back to the pool that handed it out, clients
write into what they hold, and no sum or product of addresses and sizes passes `2 ^ 64`. -/
def Permitted (s : AllocatorClients ν θ) : Label ν θ → Prop
  | .call (.allocate x n) => ∀ a, s.allocators.allocator x = some a →
    NoWrap setup s.allocators x a n
  | .call (.deallocate x p n) => ∀ a, s.allocators.allocator x = some a → n = 1 → a.pool ≠ 0 →
    p = 0 ∨ ∃ pool, s.allocators.pools a.pool = some pool ∧ p ∈ pool.out
  | .call _ => True
  | .write x _ => ∃ b ∈ s.handedOut, x ∈ b.range

/-- **What runs keep.** -/
def Inv (s : AllocatorClients ν θ) : Prop :=
  ∃ blockSize direct, Ordered setup s.allocators blockSize direct ∧ s.arrays ⊆ direct

variable {setup} {s s' : AllocatorClients ν θ} {label : Label ν θ}

omit [DecidableEq θ] [DecidableEq ν] in
theorem inv_new (hsetup : AllocatorSetup.Placed setup) (m : Memory) :
    Inv setup (new setup m : AllocatorClients ν θ) :=
  ⟨_, _, ordered_new hsetup m, List.Subset.refl _⟩

omit [DecidableEq θ] [DecidableEq ν] in
/-- What clients may write to is a block of a pool or a direct allocation. -/
theorem permitted_write {blockSize : UInt64 → UInt64} {direct : List ArenaBlock}
    (harrays : s.arrays ⊆ direct) {x : ℕ} {byte : UInt8} (hpermitted : ∃ b ∈ s.handedOut, x ∈ b.range) :
    (s.allocators.asPools direct).Permitted (poolSetup setup blockSize) (.write x byte) := by
  obtain ⟨b, hb | ⟨q, pool, hpool, hout, hbytes⟩, hx⟩ := hpermitted
  · exact Or.inr ⟨b, harrays hb, hx⟩
  · refine Or.inl ⟨q, b.addr, ?_, ?_⟩
    · rw [pool_asPools hpool]
      exact hout
    · rw [pool_asPools hpool, ← hbytes]
      exact hx

/-- **Every step keeps it.** -/
theorem Inv.step (hi : Inv setup s) (hsetup : AllocatorSetup.Placed setup)
    (hpermitted : Permitted setup s label) (hstep : s.step setup label = some s') :
    Inv setup s' := by
  obtain ⟨blockSize, direct, hs, harrays⟩ := hi
  cases label with
  | write x byte =>
    cases hstep
    exact ⟨blockSize, direct, hs.write (permitted_write harrays hpermitted), harrays⟩
  | call label =>
    obtain ⟨t, ht, rfl⟩ := Option.map_eq_some_iff.mp hstep
    cases effect_of_step ht with
    | @set _ x a _ ha hlabel =>
      have harrays' : arraysAfter setup s label = s.arrays := by
        cases label with
        | allocate y n => exact absurd rfl (hlabel y n)
        | _ => rfl
      refine ⟨blockSize, direct, hs.set (fun b hb hpool => ?_), harrays' ▸ harrays⟩
      obtain ⟨y, hy⟩ := ha b hb hpool
      exact hs.refers y b hy hpool
    | @allocate x n a ha =>
      obtain ⟨blockSize', direct', hs', hsubset, hreturns⟩ :=
        hs.allocate hsetup ha (hpermitted a ha)
      refine ⟨blockSize', direct', hs', ?_⟩
      simp only [arraysAfter, ha]
      split
      · rename_i p hp
        split
        · exact List.Subset.trans harrays hsubset
        · rename_i hn
          exact List.cons_subset.mpr ⟨(hreturns p hp).1 hn, List.Subset.trans harrays hsubset⟩
      · exact List.Subset.trans harrays hsubset
    | @deallocate x p n a ha =>
      refine ⟨blockSize, direct, hs.deallocate (fun hn hpool => ?_), harrays⟩
      refine (hpermitted a ha hn hpool).imp_right ?_
      rintro ⟨pool, hpools, hout⟩
      rw [poolAt_of_some hpools]
      exact hout

/-- **The invariant is kept**, by every step that callers are permitted. -/
theorem inv_of_reachable (hsetup : AllocatorSetup.Placed setup) {m : Memory}
    (hs : (machine setup m).ReachableBy (Permitted setup) s) : Inv setup s :=
  hs.invariant (I := Inv setup) (inv_new hsetup m)
    (fun _ _ _ _ hi hpermitted hstep => hi.step hsetup hpermitted hstep)

end AllocatorClients
