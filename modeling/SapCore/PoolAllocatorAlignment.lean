import SapCore.PoolAllocatorClients

/-!
# When single elements are aligned

An array is aligned by the arena, which is told the alignment of the element type. A single
element is a block of a chunk, and the chunk is aligned for `std::max_align_t`, whatever the
element type; the blocks follow each other at a distance that is the size of the type, or
that of a free-list node if it is larger. So an over-aligned type is not served, and a type
whose size is no multiple of eight, beyond eight bytes, puts the nodes of the free list at
odd places. `Suitable` is what is left. A type of which 256 do not fit the address space is
among them, as no element of it is ever handed out.
-/

open Alignment

section

variable {a b : UInt64}

/-- Of two powers of two, the smaller divides the larger. -/
theorem IsPowerOfTwo.dvd_of_le (ha : IsPowerOfTwo a) (hb : IsPowerOfTwo b)
    (hle : a.toNat ≤ b.toNat) : a.toNat ∣ b.toNat := by
  obtain ⟨j, hj⟩ := ha
  obtain ⟨k, hk⟩ := hb
  rw [hj, hk] at hle ⊢
  exact Nat.pow_dvd_pow 2 ((Nat.pow_le_pow_iff_right (by decide)).mp hle)

/-- Of two powers of two, the larger is a multiple of twice the smaller. -/
theorem IsPowerOfTwo.two_mul_dvd_of_lt (ha : IsPowerOfTwo a) (hb : IsPowerOfTwo b)
    (hlt : a.toNat < b.toNat) : 2 * a.toNat ∣ b.toNat := by
  obtain ⟨j, hj⟩ := ha
  obtain ⟨k, hk⟩ := hb
  rw [hj, hk] at hlt ⊢
  rw [← Nat.pow_succ']
  exact Nat.pow_dvd_pow 2 ((Nat.pow_lt_pow_iff_right (by decide)).mp hlt)

end

/-- An address that is aligned is not moved. -/
theorem alignUp_of_dvd {x align : UInt64} (halign : IsPowerOfTwo align)
    (hdvd : align.toNat ∣ x.toNat) : alignUp x align = x := by
  rw [← UInt64.toNat_inj, toNat_alignUp halign, roundUp_of_dvd halign.pos hdvd,
    Nat.mod_eq_of_lt x.toNat_lt]

namespace AllocatorClients

open Allocators FixedBlockPool

/-- `alignof(node)`. -/
def nodeAlign : ℕ := 8

variable {ν θ : Type} [DecidableEq ν] {setup : AllocatorSetup θ} {s s' : AllocatorClients ν θ}
  {t : θ} {target : Target}

/-- **What pool allocators for an element type owe**: what `allocate` returns is aligned for the
type; so are, for nodes, the blocks that a pool has cut, each of which became a node then; and
so is what is given back, which becomes a node again. -/
structure SuitablyAligned (setup : AllocatorSetup θ) (t : θ) (s : AllocatorClients ν θ) : Prop where
  returned : ∀ x a n p, s.allocators.allocator x = some a → a.type = t →
    NoWrap setup s.allocators x a n → (allocate setup s.allocators x a n).1 = some p →
    (setup.alignOf t).toNat ∣ p.toNat
  cut : ∀ x a pool, s.allocators.allocator x = some a → a.type = t →
    s.allocators.pools a.pool = some pool → ∀ p ∈ pool.carved, nodeAlign ∣ p.toNat
  givenBack : ∀ x a pool, s.allocators.allocator x = some a → a.type = t →
    s.allocators.pools a.pool = some pool → ∀ p ∈ pool.out, nodeAlign ∣ p.toNat

/-- **The condition on an element type**: 256 elements do not fit the address space; or it is not
over-aligned, and its size is eight at most or a multiple of eight. -/
def Suitable (target : Target) (T : ElementType) : Prop :=
  2 ^ 56 ≤ T.size.toNat
    ∨ T.align.toNat ≤ target.maxAlign.toNat
      ∧ (T.size.toNat ≤ nodeSize.toNat ∨ nodeAlign ∣ T.size.toNat)

/-! ## Types that are suitable -/

/-- The size of the blocks of a pool. -/
theorem toNat_blkSize_new (size per : UInt64) :
    (FixedBlockPool.new size per).blkSize.toNat = max size.toNat 8 := by
  unfold FixedBlockPool.new
  dsimp only
  split
  · rename_i hlt
    have hlt' : size.toNat < 8 := UInt64.lt_iff_toNat_lt.mp hlt
    rw [Nat.max_eq_right (Nat.le_of_lt hlt')]
    rfl
  · rename_i hge
    have hge' : 8 ≤ size.toNat := UInt64.le_iff_toNat_le.mp (UInt64.not_lt.mp hge)
    rw [Nat.max_eq_left hge']

/-- The blocks for a type are aligned for it, and for nodes, if their chunk is. -/
theorem Suitable.dvd {T : ElementType} (hT : Suitable target T) (hsmall : T.size.toNat < 2 ^ 56)
    (per : UInt64) :
    (T.align.toNat ∣ target.maxAlign.toNat
        ∧ T.align.toNat ∣ (FixedBlockPool.new T.size per).blkSize.toNat)
      ∧ nodeAlign ∣ (FixedBlockPool.new T.size per).blkSize.toNat := by
  obtain ⟨halign, hsize⟩ := hT.resolve_left (Nat.not_le.mpr hsmall)
  rw [toNat_blkSize_new]
  refine ⟨⟨T.isPowerOfTwo.dvd_of_le target.isPowerOfTwo halign, ?_⟩, ?_⟩
  · obtain hlt | hge := Nat.lt_or_ge T.size.toNat 8
    · have hle := Nat.le_of_dvd T.pos T.dvd
      rw [Nat.max_eq_right (Nat.le_of_lt hlt)]
      have hle' : T.align.toNat ≤ nodeSize.toNat := Nat.le_of_lt (Nat.lt_of_le_of_lt hle hlt)
      exact T.isPowerOfTwo.dvd_of_le ⟨3, rfl⟩ hle'
    · rw [Nat.max_eq_left hge]
      exact T.dvd
  · obtain hle | hdvd := hsize
    · have hle' : T.size.toNat ≤ 8 := hle
      rw [Nat.max_eq_right hle']
      exact Nat.dvd_refl 8
    · have hle : 8 ≤ T.size.toNat := Nat.le_of_dvd T.pos hdvd
      rw [Nat.max_eq_left hle]
      exact hdvd

/-- Blocks that are aligned for the target are aligned for nodes. -/
theorem nodeAlign_dvd_maxAlign (target : Target) : nodeAlign ∣ target.maxAlign.toNat :=
  IsPowerOfTwo.dvd_of_le (a := nodeSize) ⟨3, rfl⟩ target.isPowerOfTwo target.le_maxAlign

variable {types : θ → ElementType} {mem size : UInt64}

omit [DecidableEq ν] in
/-- **The blocks of a pool for a suitable type** are aligned for the type and for nodes. -/
theorem Suitable.aligned (hT : Suitable target (types t)) {s : Allocators ν θ}
    {blockSize : UInt64 → UInt64} {direct : List ArenaBlock}
    (hs : Ordered (ElementType.setup types target mem size) s blockSize direct) {q p : UInt64}
    {pool : FixedBlockPool} (hq : s.pools q = some pool)
    (hblk : pool.blkSize = blockSizeOf (ElementType.setup types target mem size) t)
    (hp : p ∈ pool.carved) :
    (types t).align.toNat ∣ p.toNat ∧ nodeAlign ∣ p.toNat := by
  have hcut := hs.wellCut q pool hq
  have hper := hs.perChunk hq
  have hblk' : pool.blkSize = (FixedBlockPool.new (types t).size blocksPerChunk).blkSize := hblk
  have hsmall : (types t).size.toNat < 2 ^ 56 := by
    have hfits := hcut.fits (List.ne_nil_of_mem hp)
    have hmax := Nat.le_max_left (types t).size.toNat 8
    have h256 : blocksPerChunk.toNat = 256 := rfl
    rw [hper, hblk', toNat_blkSize_new, h256] at hfits
    omega
  obtain ⟨⟨halign, hdvd⟩, hnode⟩ := hT.dvd hsmall blocksPerChunk
  rw [← hblk'] at hdvd hnode
  exact ⟨hcut.aligned _ halign hdvd p hp, hcut.aligned _ (nodeAlign_dvd_maxAlign target) hnode p hp⟩

/-- **A suitable type is served**, from every state that runs keep to. -/
theorem Suitable.suitablyAligned (hT : Suitable target (types t))
    (hsetup : AllocatorSetup.Placed (ElementType.setup types target mem size))
    {s : AllocatorClients ν θ} (hi : Inv (ElementType.setup types target mem size) s) :
    SuitablyAligned (ElementType.setup types target mem size) t s := by
  obtain ⟨blockSize, direct, hs, -⟩ := hi
  have hcarved : ∀ x a pool, s.allocators.allocator x = some a → a.type = t →
      s.allocators.pools a.pool = some pool → ∀ p ∈ pool.carved, nodeAlign ∣ p.toNat := by
    rintro x a pool ha rfl hpool p hp
    obtain ⟨pool', hpool', hblk⟩ := hs.refers x a ha (hs.headers _ pool hpool).1
    obtain rfl : pool = pool' := Option.some.inj (hpool.symm.trans hpool')
    exact (hT.aligned hs hpool hblk hp).2
  refine ⟨?_, hcarved, fun x a pool ha htype hpool p hp =>
    hcarved x a pool ha htype hpool p (hs.mem_carved hpool hp)⟩
  rintro x a n p ha rfl hexact hp
  obtain ⟨blockSize', direct', hs', -, hreturns⟩ := hs.allocate hsetup ha hexact
  by_cases hn : n = 1
  · obtain ⟨q, pool, hpool, hout, hblk⟩ := (hreturns p hp).2 hn
    exact (hT.aligned hs' hpool hblk (hs'.mem_carved hpool hout)).1
  · -- an array is aligned by the arena
    simp only [Allocators.allocate, if_neg hn] at hp
    obtain ⟨-, heq⟩ := Option.ite_none_left_eq_some.mp hp
    rw [← Option.some.inj heq]
    exact LinearArena.dvd_allocate _ _ (hsetup.alignOf a.type)

/-! ## Types that are not -/

/-- The end of the address space, less one. -/
def lastAddress : UInt64 := 18446744073709551615

/-- **Nothing is refused** by an arena that ends there; and a cursor that is aligned is not
moved. -/
theorem allocate_lastAddress (first cur bytes : UInt64) {align : UInt64}
    (halign : IsPowerOfTwo align) (hdvd : align.toNat ∣ cur.toNat) :
    (LinearArena.mk first cur lastAddress).allocate bytes align
      = (cur, ⟨first, cur + bytes, lastAddress⟩) := by
  have hlast : lastAddress.toNat = 2 ^ 64 - 1 := rfl
  have hle : ¬ cur + bytes > lastAddress := by
    have hlt := (cur + bytes).toNat_lt
    rw [gt_iff_lt, UInt64.not_lt, UInt64.le_iff_toNat_le, hlast]
    omega
  unfold LinearArena.allocate bump
  dsimp only
  rw [alignUp_of_dvd halign hdvd, if_neg hle]

/-- An odd multiple of the fundamental alignment, of which a pool object fits in front. -/
def firstChunk (target : Target) : ℕ :=
  (2 * ((target.poolSize.toNat + target.maxAlign.toNat) / (2 * target.maxAlign.toNat)) + 1)
    * target.maxAlign.toNat

theorem firstChunk_spec (target : Target) :
    target.poolSize.toNat < firstChunk target ∧ firstChunk target < 256
      ∧ target.maxAlign.toNat ∣ firstChunk target
      ∧ ¬ 2 * target.maxAlign.toNat ∣ firstChunk target := by
  have hpos := target.isPowerOfTwo.pos
  have hmax := target.maxAlign_le
  have hsize := target.poolSize_le
  unfold firstChunk
  generalize target.maxAlign.toNat = align at *
  generalize target.poolSize.toNat = bytes at *
  have hdiv := Nat.div_add_mod (bytes + align) (2 * align)
  have hmod := Nat.mod_lt (bytes + align) (Nat.mul_pos Nat.two_pos hpos)
  generalize (bytes + align) / (2 * align) = q at *
  have heq : (2 * q + 1) * align = 2 * align * q + align := by ring
  refine ⟨by omega, by omega, Nat.dvd_mul_left _ _, fun hdvd => ?_⟩
  rw [heq] at hdvd
  have hle := Nat.le_of_dvd hpos ((Nat.dvd_add_right (Nat.dvd_mul_right _ _)).mp hdvd)
  omega

/-- Where a pool object is put in front of it. -/
def firstPool (target : Target) : UInt64 :=
  UInt64.ofNat (firstChunk target - target.poolSize.toNat)

theorem toNat_firstPool (target : Target) :
    (firstPool target).toNat = firstChunk target - target.poolSize.toNat := by
  obtain ⟨-, hlt, -⟩ := firstChunk_spec target
  exact UInt64.toNat_ofNat_of_lt' (Nat.lt_of_le_of_lt (Nat.sub_le _ _)
    (Nat.lt_trans hlt (by decide)))

/-- The chunk is right behind it. -/
theorem toNat_firstPool_add (target : Target) :
    (firstPool target + target.poolSize).toNat = firstChunk target := by
  obtain ⟨hlt, hlt', -⟩ := firstChunk_spec target
  rw [UInt64.toNat_add, toNat_firstPool, Nat.sub_add_cancel (Nat.le_of_lt hlt),
    Nat.mod_eq_of_lt (Nat.lt_trans hlt' (by decide))]

theorem firstPool_ne_zero (target : Target) : firstPool target ≠ 0 := by
  obtain ⟨hlt, -⟩ := firstChunk_spec target
  rw [Ne, ← UInt64.toNat_inj, toNat_firstPool]
  exact Nat.sub_ne_zero_of_lt hlt

theorem nodeAlign_dvd_firstChunk (target : Target) : nodeAlign ∣ firstChunk target :=
  Nat.dvd_trans (nodeAlign_dvd_maxAlign target) (firstChunk_spec target).2.2.1

theorem poolAlign_dvd_firstPool (target : Target) :
    poolAlign.toNat ∣ (firstPool target).toNat := by
  rw [toNat_firstPool]
  exact Nat.dvd_sub (nodeAlign_dvd_firstChunk target) target.dvd_poolSize

/-- Allocators over an arena that begins at that address and takes the rest of the address
space. -/
def wideSetup (target : Target) (types : θ → ElementType) : AllocatorSetup θ :=
  ElementType.setup types target (firstPool target) (lastAddress - firstPool target)

theorem toNat_wideSetup (target : Target) :
    (firstPool target).toNat + (lastAddress - firstPool target).toNat = lastAddress.toNat := by
  have hle : firstPool target ≤ lastAddress :=
    UInt64.le_iff_toNat_le.mpr (Nat.le_of_lt_succ (firstPool target).toNat_lt)
  rw [UInt64.toNat_sub_of_le _ _ hle, Nat.add_sub_cancel' (UInt64.le_iff_toNat_le.mp hle)]

/-- An allocator is made. -/
def made (target : Target) (types : θ → ElementType) (m : Memory) (x : ν) (t : θ) :
    AllocatorClients ν θ :=
  ⟨(Allocators.new (wideSetup target types) m).set x (some (.new t)), []⟩

theorem arena_made (target : Target) (types : θ → ElementType) (m : Memory) (x : ν) (t : θ) :
    (made target types m x t).allocators.heap.arena
      = ⟨firstPool target, firstPool target, lastAddress⟩ := by
  have hend : firstPool target + (lastAddress - firstPool target) = lastAddress := by
    rw [← UInt64.toNat_inj, UInt64.toNat_add, toNat_wideSetup]
    rfl
  show LinearArena.mk (firstPool target) (firstPool target)
    (firstPool target + (lastAddress - firstPool target)) = _
  rw [hend]

/-- The arena, after the pool object was taken of it. -/
def afterPool (target : Target) : LinearArena :=
  ⟨firstPool target, firstPool target + target.poolSize, lastAddress⟩

/-- The allocators, after the pool was made. -/
def withFirstPool (target : Target) (types : θ → ElementType) (m : Memory) (x : ν) (t : θ) :
    Allocators ν θ :=
  (((made target types m x t).allocators.setArena (afterPool target)).setPool (firstPool target)
    (⟨afterPool target, m⟩, .new (types t).size blocksPerChunk)).set x
      (some ⟨t, firstPool target⟩)

theorem pools_withFirstPool (target : Target) (types : θ → ElementType) (m : Memory) (x : ν)
    (t : θ) : (withFirstPool target types m x t).pools (firstPool target)
      = some (.new (types t).size blocksPerChunk) := by
  rw [withFirstPool, pools_set, pools_setPool_self]

/-- Its pool is made. -/
theorem ensurePool_made (target : Target) (types : θ → ElementType) (m : Memory) (x : ν) (t : θ) :
    ensurePool (wideSetup target types) (made target types m x t).allocators x (.new t)
      = (some (firstPool target), withFirstPool target types m x t) := by
  have hheader : (made target types m x t).allocators.heap.arena.allocate
      (wideSetup target types).poolSize poolAlign = (firstPool target, afterPool target) := by
    rw [arena_made]
    exact allocate_lastAddress _ _ _ ⟨3, rfl⟩ (poolAlign_dvd_firstPool target)
  unfold ensurePool
  rw [hheader, if_neg (fun h => h rfl)]
  exact if_neg (firstPool_ne_zero target)

/-- **The first element** is the last block of the first chunk. -/
theorem allocate_made (target : Target) (types : θ → ElementType) (m : Memory) (x : ν) (t : θ) :
    ∃ s₂ pool, allocate (wideSetup target types) (made target types m x t).allocators x (.new t) 1
        = (some (blockAt (firstPool target + target.poolSize)
          (FixedBlockPool.new (types t).size blocksPerChunk).blkSize 255), s₂)
      ∧ s₂.allocator x = some ⟨t, firstPool target⟩ ∧ s₂.pools (firstPool target) = some pool
      ∧ pool.carved = chunkBlocks (firstPool target + target.poolSize)
        (FixedBlockPool.new (types t).size blocksPerChunk).blkSize 256 := by
  have hdvd : target.maxAlign.toNat ∣ (firstPool target + target.poolSize).toNat := by
    rw [toNat_firstPool_add]
    exact (firstChunk_spec target).2.2.1
  have hne : firstPool target + target.poolSize ≠ 0 := by
    obtain ⟨hlt, -⟩ := firstChunk_spec target
    rw [Ne, ← UInt64.toNat_inj, toNat_firstPool_add]
    exact Nat.ne_of_gt (Nat.lt_of_le_of_lt (Nat.zero_le _) hlt)
  have hchunk : (FixedBlockPool.new (types t).size blocksPerChunk).allocate target
      ⟨afterPool target, m⟩ = _ :=
    allocate_of_chunk rfl hne (allocate_lastAddress _ _ _ target.isPowerOfTwo hdvd)
  simp only [Allocators.allocate, if_true, ensurePool_made, allocateFrom, pools_withFirstPool]
  refine ⟨_, _, congrArg₂ Prod.mk (congrArg Prod.fst hchunk) rfl, ?_, pools_setPool_self _ _ _, ?_⟩
  · rw [allocator_setPool, withFirstPool, allocator_set_self]
  · exact congrArg (fun r => r.2.2.carved) hchunk

/-- Nothing wraps, unless 256 elements do not fit the address space. -/
theorem noWrap_made (target : Target) (types : θ → ElementType) (m : Memory) (x : ν) (t : θ)
    (hsmall : (types t).size.toNat < 2 ^ 56) :
    NoWrap (wideSetup target types) (made target types m x t).allocators x (.new t) 1 where
  array h := absurd rfl h
  header _ _ := by
    obtain ⟨hlt, hlt', -⟩ := firstChunk_spec target
    have hround : roundUp (firstPool target).toNat poolAlign.toNat = (firstPool target).toNat :=
      roundUp_of_dvd (by decide) (poolAlign_dvd_firstPool target)
    rw [arena_made, hround, toNat_firstPool]
    show firstChunk target - target.poolSize.toNat + target.poolSize.toNat < 2 ^ 64
    omega
  chunk _ q s' heq _ := by
    rw [ensurePool_made] at heq
    obtain ⟨hq, rfl⟩ := Prod.mk.inj heq
    obtain rfl := Option.some.inj hq
    obtain ⟨-, hlt, hdvd, -⟩ := firstChunk_spec target
    have hcur : roundUp (firstPool target + target.poolSize).toNat target.maxAlign.toNat
        = firstChunk target := by
      rw [toNat_firstPool_add, roundUp_of_dvd target.isPowerOfTwo.pos hdvd]
    have hper : blocksPerChunk.toNat = 256 := rfl
    rw [poolAt_of_some (pools_withFirstPool target types m x t), toNat_blkSize_new]
    show roundUp (firstPool target + target.poolSize).toNat target.maxAlign.toNat
      + max (types t).size.toNat 8 * blocksPerChunk.toNat < 2 ^ 64
    rw [hcur, hper]
    omega

variable [DecidableEq θ]

omit [DecidableEq θ] in
theorem placed_setup (types : θ → ElementType) (target : Target) {mem size : UInt64}
    (hfits : mem.toNat + size.toNat < 2 ^ 64) (hnonnull : mem = 0 → size = 0) :
    AllocatorSetup.Placed (ElementType.setup types target mem size) :=
  ⟨⟨fun t => (types t).isPowerOfTwo, hnonnull⟩, hfits⟩

/-- **A type that is served over the wide arena is suitable.** -/
theorem suitable_of_aligned {m : Memory} (x : ν)
    (h : ∀ s : AllocatorClients ν θ,
      (machine (wideSetup target types) m).ReachableBy (Permitted (wideSetup target types)) s →
        SuitablyAligned (wideSetup target types) t s) : Suitable target (types t) := by
  by_contra hT
  have hsmall : (types t).size.toNat < 2 ^ 56 := Nat.not_le.mp (fun hle => hT (Or.inl hle))
  have hblk := toNat_blkSize_new (types t).size blocksPerChunk
  have hmade : (machine (wideSetup target types) m).ReachableBy (Permitted (wideSetup target types))
      (made target types m x t) := .step .init trivial (a := .call (.construct x t)) rfl
  have hexact := noWrap_made target types m x t hsmall
  have hx : (made target types m x t).allocators.allocator x = some (.new t) :=
    allocator_set_self _ _ _
  obtain ⟨s₂, pool, hallocate, hx₂, hpool, hcarved⟩ := allocate_made target types m x t
  have hraw := toNat_firstPool_add target
  obtain ⟨-, hlt, -, hodd⟩ := firstChunk_spec target
  refine hT (Or.inr ⟨?_, ?_⟩)
  · -- the first element is at a distance from the chunk that is a multiple of the alignment
    by_contra hover
    have hdvd := (h _ hmade).returned x _ 1 _ hx rfl hexact (congrArg Prod.fst hallocate)
    have hle := Nat.le_of_dvd (types t).pos (types t).dvd
    have hnode := target.le_maxAlign
    rw [toNat_blockAt (by omega) (by omega), hblk, Nat.max_eq_left (by omega), hraw] at hdvd
    have hchunk : (types t).align.toNat ∣ firstChunk target :=
      (Nat.dvd_add_left (Dvd.dvd.mul_left (types t).dvd 255)).mp hdvd
    exact hodd (Nat.dvd_trans (target.isPowerOfTwo.two_mul_dvd_of_lt (types t).isPowerOfTwo
      (Nat.not_le.mp hover)) hchunk)
  · -- the second block of the chunk is a node
    by_contra hsize
    obtain ⟨hlarge, hodd⟩ := not_or.mp hsize
    have hnode : nodeSize.toNat = 8 := rfl
    have hstep : (machine (wideSetup target types) m).step (made target types m x t)
        (.call (.allocate x 1)) = some
          ⟨s₂, arraysAfter (wideSetup target types) (made target types m x t) (.allocate x 1)⟩ := by
      show (((made target types m x t).allocators.allocator x).map _).map _ = _
      rw [hx, Option.map_some, hallocate]
      rfl
    have hpermitted : Permitted (wideSetup target types) (made target types m x t)
        (.call (.allocate x 1)) := fun a ha => by
      cases hx.symm.trans ha
      exact hexact
    have hreach := hmade.step hpermitted hstep
    have hmem : blockAt (firstPool target + target.poolSize)
        (FixedBlockPool.new (types t).size blocksPerChunk).blkSize 1 ∈ pool.carved := by
      rw [hcarved]
      exact List.mem_map_of_mem (List.mem_range.mpr (by decide))
    have hdvd := (h _ hreach).cut x _ pool hx₂ rfl hpool _ hmem
    rw [toNat_blockAt (by omega) (by omega), hblk, Nat.max_eq_left (by omega), hraw,
      Nat.one_mul] at hdvd
    exact hodd ((Nat.dvd_add_right (nodeAlign_dvd_firstChunk target)).mp hdvd)

/-- **Pool blocks are suitably aligned exactly if the element type is suitable**: over every arena
and in every run of allocators without wraparound, what allocators for the type return, and the
nodes of their pools. -/
theorem suitablyAligned_iff [Inhabited ν] (target : Target) (types : θ → ElementType) (t : θ) :
    (∀ (mem size : UInt64) (m : Memory) (s : AllocatorClients ν θ),
        mem.toNat + size.toNat < 2 ^ 64 → (mem = 0 → size = 0) →
        (machine (ElementType.setup types target mem size) m).ReachableBy
          (Permitted (ElementType.setup types target mem size)) s →
        SuitablyAligned (ElementType.setup types target mem size) t s)
      ↔ Suitable target (types t) := by
  constructor
  · intro h
    have hfits : (firstPool target).toNat + (lastAddress - firstPool target).toNat < 2 ^ 64 := by
      rw [toNat_wideSetup]
      decide
    exact suitable_of_aligned (m := fun _ => 0) (default : ν) (fun s hs =>
      h (firstPool target) _ _ s hfits (fun hnull => absurd hnull (firstPool_ne_zero target)) hs)
  · intro hT mem size m s hfits hnonnull hs
    have hsetup := placed_setup types target hfits hnonnull
    exact hT.suitablyAligned hsetup (inv_of_reachable hsetup hs)

/-- Two element types: one of 64 bytes that is aligned to a cache line, and one of three words
of four bytes. -/
def lineAndTriple (t : Bool) : ElementType :=
  if t then ⟨64, 64, by decide, ⟨6, rfl⟩, by decide⟩
  else ⟨12, 4, by decide, ⟨2, rfl⟩, by decide⟩

/-- Allocators for them, over a buffer of a megabyte. -/
def lineAndTripleSetup : AllocatorSetup Bool :=
  ElementType.setup lineAndTriple .linux 4096 1048576

/-- Pairs of words that are aligned to their size. -/
def alignedPair : ElementType :=
  ⟨16, 16, by decide, Target.linux.isPowerOfTwo, by decide⟩

/-- Allocators for them, on Windows. -/
def alignedPairSetup : AllocatorSetup Unit :=
  ElementType.setup (fun _ => alignedPair) .windows 4096 1048576

/-- **The first element of an over-aligned type** is not aligned: one that is aligned to a cache
line, on Linux, and one that is aligned to two words, on Windows. The second block of a pool
for a type of twelve bytes is a node at an odd multiple of four. -/
theorem lineAndTriple_misaligned :
    (∃ s : AllocatorClients ℕ Bool,
        (machine lineAndTripleSetup (fun _ => 0)).ReachableBy (Permitted lineAndTripleSetup) s
          ∧ ¬ SuitablyAligned lineAndTripleSetup true s)
      ∧ (∃ s : AllocatorClients ℕ Unit,
        (machine alignedPairSetup (fun _ => 0)).ReachableBy (Permitted alignedPairSetup) s
          ∧ ¬ SuitablyAligned alignedPairSetup () s)
      ∧ ∃ s : AllocatorClients ℕ Bool,
        (machine lineAndTripleSetup (fun _ => 0)).ReachableBy (Permitted lineAndTripleSetup) s
          ∧ ¬ SuitablyAligned lineAndTripleSetup false s := by
  have hmade : ∀ t, (machine lineAndTripleSetup (fun _ => 0)).ReachableBy
      (Permitted lineAndTripleSetup)
      (⟨(Allocators.new lineAndTripleSetup (fun _ => 0)).set 0 (some (.new t)), []⟩ :
        AllocatorClients ℕ Bool) :=
    fun t => .step .init trivial (a := .call (.construct 0 t)) rfl
  have hexact : ∀ t, NoWrap lineAndTripleSetup
      ((Allocators.new lineAndTripleSetup (fun _ => 0) : Allocators ℕ Bool).set 0 (some (.new t)))
      0 (.new t) 1 := by
    intro t
    have hheader : roundUp (4096 : UInt64).toNat poolAlign.toNat
        + lineAndTripleSetup.poolSize.toNat < 2 ^ 64 := by
      decide
    refine ⟨fun h => absurd rfl h, fun _ _ => hheader, fun _ q s' heq _ => ?_⟩
    cases t
    · cases heq
      decide
    · cases heq
      decide
  refine ⟨⟨_, hmade true, fun h => ?_⟩, ?_, ?_⟩
  · have hdvd := h.returned 0 (.new true) 1 20448 rfl rfl (hexact true) rfl
    exact absurd hdvd (by decide)
  · refine ⟨_, .step .init trivial (a := .call (.construct 0 ())) rfl, fun h => ?_⟩
    have hheader : roundUp (4096 : UInt64).toNat poolAlign.toNat
        + alignedPairSetup.poolSize.toNat < 2 ^ 64 := by
      decide
    have hdvd := h.returned 0 (.new ()) 1 8216 rfl rfl
      ⟨fun h => absurd rfl h, fun _ _ => hheader, fun _ q s' heq _ => by
        cases heq
        decide⟩ rfl
    exact absurd hdvd (by decide)
  · have hpermitted : Permitted lineAndTripleSetup
        (⟨(Allocators.new lineAndTripleSetup (fun _ => 0)).set 0 (some (.new false)), []⟩ :
          AllocatorClients ℕ Bool) (.call (.allocate 0 1)) := fun a ha => by
      cases ha
      exact hexact false
    refine ⟨_, (hmade false).step hpermitted rfl, fun h => ?_⟩
    have hdvd := h.cut 0 ⟨false, 4096⟩ _ rfl rfl rfl 4140 (by decide)
    exact absurd hdvd (by decide)

end AllocatorClients
