import SapCore.ArenaRuns
import SapCore.FixedBlockPoolShape

/-!
# Pools that share an arena

Any number of pools take their chunks of one arena, and clients take memory of it
directly. What is handed out by whom does not overlap: everything that was taken of the
arena lies before its cursor, and everything that is taken lies after it. A pool writes
into its own free blocks and into the chunk it cuts, and clients write into what was
handed out to them, so that no list is disturbed.

A pool takes a chunk when its list is empty, that is, when all its blocks are handed out;
so the number of its chunks is the least that its busiest moment asked for.
-/

open Alignment

namespace FixedBlockPool

variable {target : Target} {host : ByteOrder} {m : Memory} {h : ArenaHeap} {pool : FixedBlockPool}
  {free : List UInt64}

/-! ## What `allocate` does -/

/-- The request for a chunk that `allocate` makes does not wrap. -/
def ChunkExact (target : Target) (arena : LinearArena) (pool : FixedBlockPool) : Prop :=
  pool.free = 0 → pool.blkSize.toNat * pool.perChunk.toNat < 2 ^ 64
    ∧ BumpArena.Exact arena.end_.toNat arena.cur (pool.blkSize * pool.perChunk)
      target.maxAlign

/-- **What `allocate` of a pool does**: it throws and changes nothing, takes a block off its
list, or cuts a chunk past the cursor and takes a block of it. -/
theorem allocate_cases (hblk : 8 ≤ pool.blkSize.toNat)
    (hexact : ChunkExact target h.arena pool) (hnull : h.arena.cur = 0 → h.arena.end_ = 0) :
    pool.allocate target h = (none, h, pool)
      ∨ (pool.free ≠ 0 ∧ pool.allocate target h = pop target.host h pool)
      ∨ ∃ raw arena, pool.free = 0 ∧ Fits raw pool.blkSize pool.perChunk.toNat
        ∧ h.arena.cur.toNat ≤ raw.toNat
        ∧ arena.begin_ = h.arena.begin_ ∧ arena.end_ = h.arena.end_
        ∧ arena.cur.toNat = raw.toNat + pool.perChunk.toNat * pool.blkSize.toNat
        ∧ arena.cur.toNat ≤ h.arena.end_.toNat
        ∧ pool.allocate target h = pop target.host
          ⟨arena, (pool.cut target.host h.memory raw).1⟩ (pool.cut target.host h.memory raw).2 := by
  by_cases hfree : pool.free = 0
  · obtain ⟨hproduct, hexact⟩ := hexact hfree
    have hbytes : (pool.blkSize * pool.perChunk).toNat
        = pool.perChunk.toNat * pool.blkSize.toNat := by
      rw [UInt64.toNat_mul, Nat.mod_eq_of_lt hproduct, Nat.mul_comm]
    obtain ⟨hne, hge, hcur, hle⟩ | ⟨hzero, hsame⟩ := hexact.allocate_cases target.isPowerOfTwo hnull
    · have hend := h.arena.end_.toNat_lt
      rw [hbytes] at hcur hle
      refine Or.inr (Or.inr ⟨_, (h.arena.allocate _ target.maxAlign).2, hfree,
        ⟨hne, hblk, Nat.lt_of_le_of_lt hle hend⟩, hge, rfl, rfl, hcur, ?_, ?_⟩)
      · rw [hcur]
        exact hle
      · simp only [allocate, if_pos hfree, addChunk, if_neg hne, if_true]
    · refine Or.inl ?_
      simp [allocate, hfree, addChunk, hzero, hsame]
  · exact Or.inr (Or.inl ⟨hfree, if_neg hfree⟩)

/-- **A block that `allocate` returns is added to those that are handed out.** -/
theorem out_allocate {p : UInt64} (hp : (pool.allocate target h).1 = some p) :
    (pool.allocate target h).2.2.out = p :: pool.out := by
  unfold allocate addChunk at hp ⊢
  dsimp only at hp ⊢
  by_cases hfree : pool.free = 0
  · by_cases hzero : (h.arena.allocate (pool.blkSize * pool.perChunk) target.maxAlign).1 = 0
    · simp [hfree, hzero] at hp
    · simp only [hfree, hzero, if_true, if_false] at hp ⊢
      rw [← Option.some.inj hp]
      rfl
  · simp only [hfree, if_false] at hp ⊢
    rw [← Option.some.inj hp]
    rfl

/-! ## The number of chunks -/

/-- **The chunks of a pool and its busiest moment.** -/
structure Counted (pool : FixedBlockPool) : Prop where
  out_le : pool.out.length ≤ pool.peak
  peak_le : pool.peak ≤ pool.chunks * pool.perChunk.toNat
  lt_peak : pool.chunks ≠ 0 → (pool.chunks - 1) * pool.perChunk.toNat < pool.peak

theorem counted_new (blockSize blocksPerChunk : UInt64) :
    Counted (new blockSize blocksPerChunk) where
  out_le := Nat.le_refl 0
  peak_le := Nat.zero_le _
  lt_peak hne := absurd rfl hne

theorem Counted.isLeast (hc : Counted pool) :
    IsLeast {k | pool.peak ≤ k * pool.perChunk.toNat} pool.chunks := by
  refine ⟨hc.peak_le, fun k hk => ?_⟩
  by_contra hlt
  have hne : pool.chunks ≠ 0 := by omega
  have hle : k * pool.perChunk.toNat ≤ (pool.chunks - 1) * pool.perChunk.toNat :=
    Nat.mul_le_mul_right _ (by omega)
  exact absurd (hc.lt_peak hne) (Nat.not_lt.mpr (Nat.le_trans hk hle))

/-- A block is taken off a list that has one. -/
theorem Counted.pop (hc : Counted pool) (hs : Shape host m pool free) (hfree : pool.free ≠ 0)
    (h : ArenaHeap) : Counted (FixedBlockPool.pop host h pool).2.2 where
  out_le := Nat.le_max_right _ _
  peak_le := by
    have hne : free ≠ [] := fun heq => hfree (hs.free_eq_nil_iff.mp heq)
    have hpos := List.length_pos_iff.mpr hne
    have hlength := hs.length_add
    have hle := hc.peak_le
    show max pool.peak (pool.out.length + 1) ≤ pool.chunks * pool.perChunk.toNat
    omega
  lt_peak hne := Nat.lt_of_lt_of_le (hc.lt_peak hne) (Nat.le_max_left _ _)

theorem Counted.push (hc : Counted pool) (p : UInt64) :
    Counted { pool with free := p, out := pool.out.erase p } where
  out_le := Nat.le_trans List.length_erase_le hc.out_le
  peak_le := hc.peak_le
  lt_peak := hc.lt_peak

/-- A chunk is cut when all blocks are handed out, and a block of it is taken. -/
theorem Counted.cut (hc : Counted pool) (hs : Shape host m pool []) (raw : UInt64)
    (h : ArenaHeap) : Counted (FixedBlockPool.pop host h (pool.cut host m raw).2).2.2 where
  out_le := Nat.le_max_right _ _
  peak_le := by
    have hlength := hs.length_add
    have hle := hc.peak_le
    have hper := hs.perChunk
    rw [List.length_nil] at hlength
    show max pool.peak (pool.out.length + 1) ≤ (pool.chunks + 1) * pool.perChunk.toNat
    rw [Nat.add_mul, Nat.one_mul]
    omega
  lt_peak _ := by
    have hlength := hs.length_add
    rw [List.length_nil] at hlength
    show pool.chunks * pool.perChunk.toNat < max pool.peak (pool.out.length + 1)
    omega

end FixedBlockPool

namespace Pools

open FixedBlockPool

variable {ι : Type} {setup : PoolSetup ι}

/-- **The invariant**: the pools keep their shape, and what was taken of the arena lies before
its cursor and does not overlap. -/
structure Inv (setup : PoolSetup ι) (s : Pools ι) : Prop where
  begin_ : s.heap.arena.begin_ = setup.mem
  end_ : s.heap.arena.end_ = setup.mem + setup.size
  le_cur : setup.mem.toNat ≤ s.heap.arena.cur.toNat
  cur_le : s.heap.arena.cur.toNat ≤ setup.mem.toNat + setup.size.toNat
  blkSize : ∀ i, (s.pool i).blkSize
    = (FixedBlockPool.new (setup.blockSize i) (setup.blocksPerChunk i)).blkSize
  perChunk : ∀ i, (s.pool i).perChunk = setup.blocksPerChunk i
  shape : ∀ i, ∃ free, Shape setup.host s.heap.memory (s.pool i) free
  counted : ∀ i, Counted (s.pool i)
  inside : ∀ i, ∀ p ∈ (s.pool i).carved, setup.mem.toNat ≤ p.toNat
    ∧ p.toNat + (s.pool i).blkSize.toNat ≤ s.heap.arena.cur.toNat
  apart : ∀ i j, i ≠ j → ∀ p ∈ (s.pool i).carved, ∀ q ∈ (s.pool j).carved,
    Apart p (s.pool i).blkSize q (s.pool j).blkSize
  insideDirect : ∀ d ∈ s.direct, setup.mem.toNat ≤ d.addr.toNat
    ∧ d.addr.toNat + d.bytes.toNat ≤ s.heap.arena.cur.toNat
  apartDirect : ∀ d ∈ s.direct, ∀ i, ∀ p ∈ (s.pool i).carved, Apart d.addr d.bytes p (s.pool i).blkSize
  direct : s.direct.Pairwise (fun d e => Apart d.addr d.bytes e.addr e.bytes)

variable [DecidableEq ι] {s s' : Pools ι} {i : ι}

omit [DecidableEq ι] in
/-- What lies before the cursor and outside the blocks of a pool is not written. -/
theorem agreesOn_of_writes {m m' : Memory} {cur blk n q : ℕ} {carved : List UInt64}
    (hmemory : ∀ x, m' x = m x ∨ cur ≤ x ∨ ∃ p ∈ carved, p.toNat ≤ x ∧ x < p.toNat + blk)
    (hle : q + n ≤ cur) (hapart : ∀ p ∈ carved, p.toNat + blk ≤ q ∨ q + n ≤ p.toNat) :
    m.AgreesOn m' q n := by
  intro x hx hx'
  obtain heq | hge | ⟨p, hp, hge, hlt⟩ := hmemory x
  · exact heq
  · omega
  · have hp := hapart p hp
    omega

omit [DecidableEq ι] in
/-- What is before the cursor, and apart from the blocks that were, is apart from those that are
cut past the cursor as well. -/
theorem apart_of_carved {carved carved' : List UInt64} {blk q size : UInt64} {cur : ℕ}
    (hcarved : ∀ p ∈ carved', p ∈ carved ∨ cur ≤ p.toNat) (hle : q.toNat + size.toNat ≤ cur)
    (hapart : ∀ p ∈ carved, Apart q size p blk) : ∀ p ∈ carved', Apart q size p blk := by
  intro p hp
  obtain hold | hge := hcarved p hp
  · exact hapart p hold
  · exact Or.inl (Nat.le_trans hle hge)

/-- **A pool changes**: its blocks are those it had, or are cut past the cursor, and nothing is
written but there and into its blocks. -/
theorem Inv.setPool (hs : Inv setup s) {arena : LinearArena} {m : Memory} {pool : FixedBlockPool}
    (hbegin : arena.begin_ = s.heap.arena.begin_) (hend : arena.end_ = s.heap.arena.end_)
    (hcur : s.heap.arena.cur.toNat ≤ arena.cur.toNat)
    (hcur' : arena.cur.toNat ≤ setup.mem.toNat + setup.size.toNat)
    (hblk : pool.blkSize = (s.pool i).blkSize) (hper : pool.perChunk = (s.pool i).perChunk)
    (hcarved : ∀ p ∈ pool.carved, p ∈ (s.pool i).carved
      ∨ (s.heap.arena.cur.toNat ≤ p.toNat ∧ p.toNat + pool.blkSize.toNat ≤ arena.cur.toNat))
    (hmemory : ∀ x, m x = s.heap.memory x ∨ s.heap.arena.cur.toNat ≤ x
      ∨ ∃ p ∈ (s.pool i).carved, p.toNat ≤ x ∧ x < p.toNat + (s.pool i).blkSize.toNat)
    (hshape : ∃ free, Shape setup.host m pool free) (hcounted : Counted pool) :
    Inv setup (s.setPool i (⟨arena, m⟩, pool)) := by
  have hcases : ∀ {q size : UInt64}, q.toNat + size.toNat ≤ s.heap.arena.cur.toNat →
      (∀ p ∈ (s.pool i).carved, Apart q size p (s.pool i).blkSize) →
      ∀ p ∈ pool.carved, Apart q size p pool.blkSize := by
    rw [hblk]
    exact fun hle hapart => apart_of_carved (fun p hp => (hcarved p hp).imp_right And.left) hle hapart
  exact {
    begin_ := hbegin.trans hs.begin_
    end_ := hend.trans hs.end_
    le_cur := Nat.le_trans hs.le_cur hcur
    cur_le := hcur'
    blkSize := (Function.forall_update_iff s.pool (fun j pool => pool.blkSize
      = (FixedBlockPool.new (setup.blockSize j) (setup.blocksPerChunk j)).blkSize)).mpr
      ⟨hblk.trans (hs.blkSize i), fun j _ => hs.blkSize j⟩
    perChunk := (Function.forall_update_iff s.pool (fun j pool => pool.perChunk
      = setup.blocksPerChunk j)).mpr ⟨hper.trans (hs.perChunk i), fun j _ => hs.perChunk j⟩
    shape := by
      refine (Function.forall_update_iff s.pool
        (fun _ pool => ∃ free, Shape setup.host m pool free)).mpr ⟨hshape, fun j hj => ?_⟩
      obtain ⟨free, hfree⟩ := hs.shape j
      refine ⟨free, hfree.congr (fun q hq => ?_)⟩
      have hq' := hfree.mem_carved_of_free hq
      have hblk := hfree.blkSize
      have hinside := (hs.inside j q hq').2
      refine agreesOn_of_writes hmemory (by omega) (fun p hp => ?_)
      obtain hle | hle := hs.apart i j (Ne.symm hj) p hp q hq'
      · exact Or.inl hle
      · exact Or.inr (by omega)
    counted := (Function.forall_update_iff s.pool (fun _ pool => Counted pool)).mpr
      ⟨hcounted, fun j _ => hs.counted j⟩
    inside := by
      refine (Function.forall_update_iff s.pool (fun _ pool => ∀ p ∈ pool.carved,
        setup.mem.toNat ≤ p.toNat ∧ p.toNat + pool.blkSize.toNat ≤ arena.cur.toNat)).mpr
        ⟨fun p hp => ?_, fun j _ p hp => ?_⟩
      · obtain hold | ⟨hge, hle⟩ := hcarved p hp
        · have hinside := hs.inside i p hold
          rw [hblk]
          exact ⟨hinside.1, Nat.le_trans hinside.2 hcur⟩
        · exact ⟨Nat.le_trans hs.le_cur hge, hle⟩
      · have hinside := hs.inside j p hp
        exact ⟨hinside.1, Nat.le_trans hinside.2 hcur⟩
    apart := by
      intro j k hjk
      show ∀ p ∈ (Function.update s.pool i pool j).carved,
        ∀ q ∈ (Function.update s.pool i pool k).carved,
        Apart p (Function.update s.pool i pool j).blkSize q
          (Function.update s.pool i pool k).blkSize
      by_cases hj : j = i
      · subst hj
        rw [Function.update_self, Function.update_of_ne (Ne.symm hjk)]
        intro p hp q hq
        exact (hcases (hs.inside k q hq).2 (fun p hp => hs.apart k j (Ne.symm hjk) q hq p hp)
          p hp).symm
      · rw [Function.update_of_ne hj]
        by_cases hk : k = i
        · subst hk
          rw [Function.update_self]
          intro p hp
          exact hcases (hs.inside j p hp).2 (hs.apart j k hjk p hp)
        · rw [Function.update_of_ne hk]
          exact hs.apart j k hjk
    insideDirect := fun d hd =>
      ⟨(hs.insideDirect d hd).1, Nat.le_trans (hs.insideDirect d hd).2 hcur⟩
    apartDirect := fun d hd => (Function.forall_update_iff s.pool (fun _ pool =>
      ∀ p ∈ pool.carved, Apart d.addr d.bytes p pool.blkSize)).mpr
        ⟨hcases (hs.insideDirect d hd).2 (hs.apartDirect d hd i), fun j _ =>
          hs.apartDirect d hd j⟩
    direct := hs.direct }

/-! ## The calls -/

/-- The buffer of the arena: its end is an address, and it is not at the null address unless it
is empty. -/
structure PoolSetup.Proper {ι : Type} (setup : PoolSetup ι) : Prop where
  perChunk : ∀ i, 1 ≤ (setup.blocksPerChunk i).toNat
  fits : setup.mem.toNat + setup.size.toNat < 2 ^ 64
  nonnull : setup.mem = 0 → setup.size = 0

/-- **What callers owe**: a pool is given back what it handed out, or the null pointer;
alignments are powers of two; clients write into what was handed out; and no sum or product of
addresses and sizes passes `2 ^ 64`. -/
def Permitted (setup : PoolSetup ι) (s : Pools ι) : Label ι → Prop
  | .allocate i => (s.pool i).free = 0 →
    roundUp s.heap.arena.cur.toNat setup.maxAlign.toNat
      + (s.pool i).blkSize.toNat * (s.pool i).perChunk.toNat < 2 ^ 64
  | .deallocate i p => p = 0 ∨ p ∈ (s.pool i).out
  | .direct bytes align => IsPowerOfTwo align
    ∧ roundUp s.heap.arena.cur.toNat align.toNat + bytes.toNat < 2 ^ 64
  | .write x _ =>
    (∃ i, ∃ p ∈ (s.pool i).out, p.toNat ≤ x ∧ x < p.toNat + (s.pool i).blkSize.toNat)
      ∨ ∃ d ∈ s.direct, d.addr.toNat ≤ x ∧ x < d.addr.toNat + d.bytes.toNat

omit [DecidableEq ι] in
theorem inv_new (hsetup : PoolSetup.Proper setup) (m : Memory) : Inv setup (new setup m) where
  begin_ := rfl
  end_ := rfl
  le_cur := Nat.le_refl _
  cur_le := Nat.le_add_right _ _
  blkSize _ := rfl
  perChunk _ := rfl
  shape i := ⟨[], shape_new _ (hsetup.perChunk i) m⟩
  counted _ := counted_new _ _
  inside _ _ hp := absurd hp List.not_mem_nil
  apart _ _ _ _ hp := absurd hp List.not_mem_nil
  insideDirect _ hd := absurd hd List.not_mem_nil
  apartDirect _ hd := absurd hd List.not_mem_nil
  direct := List.Pairwise.nil

omit [DecidableEq ι] in
theorem Inv.toNat_end (hs : Inv setup s) (hsetup : PoolSetup.Proper setup) :
    s.heap.arena.end_.toNat = setup.mem.toNat + setup.size.toNat := by
  rw [hs.end_, UInt64.toNat_add, Nat.mod_eq_of_lt hsetup.fits]

omit [DecidableEq ι] in
theorem Inv.null (hs : Inv setup s) (hsetup : PoolSetup.Proper setup)
    (hcur : s.heap.arena.cur = 0) : s.heap.arena.end_ = 0 := by
  have hmem : setup.mem = 0 := by
    have hle := hs.le_cur
    rw [hcur] at hle
    exact UInt64.toNat_inj.mp (Nat.le_zero.mp hle)
  rw [hs.end_, hmem, hsetup.nonnull hmem]
  rfl

omit [DecidableEq ι] in
theorem Permitted.chunkExact (hpermitted : s.Permitted setup (.allocate i)) :
    ChunkExact setup.toTarget s.heap.arena (s.pool i) := by
  intro hfree
  have hlt := hpermitted hfree
  have hproduct := Nat.lt_of_le_of_lt (Nat.le_add_left _ _) hlt
  refine ⟨hproduct, Or.inl ?_⟩
  rw [UInt64.toNat_mul, Nat.mod_eq_of_lt hproduct]
  exact hlt

theorem Inv.allocate (hs : Inv setup s) (hsetup : PoolSetup.Proper setup)
    (hpermitted : s.Permitted setup (.allocate i)) :
    Inv setup (s.setPool i ((s.pool i).allocate setup.toTarget s.heap).2) := by
  obtain ⟨free, hshape⟩ := hs.shape i
  obtain hthrows | ⟨hfree, hpop⟩ | ⟨raw, arena, hfree, hfit, hge, hbegin, hend, hcur, hle, hchunk⟩ :=
    FixedBlockPool.allocate_cases hshape.blkSize hpermitted.chunkExact (hs.null hsetup)
  · rw [hthrows]
    exact hs.setPool rfl rfl (Nat.le_refl _) hs.cur_le rfl rfl (fun _ hp => Or.inl hp)
      (fun x => Or.inl rfl) ⟨free, hshape⟩ (hs.counted i)
  · rw [hpop]
    obtain ⟨rest, -, hrest⟩ := hshape.pop s.heap.arena hfree
    exact hs.setPool rfl rfl (Nat.le_refl _) hs.cur_le rfl rfl (fun _ hp => Or.inl hp)
      (fun x => Or.inl rfl) ⟨rest, hrest⟩ ((hs.counted i).pop hshape hfree _)
  · obtain rfl := hshape.free_eq_nil_iff.mpr hfree
    have hnew := hshape.cut hfree hfit
      (fun p hp => Nat.le_trans (hs.inside i p hp).2 hge)
    have hne : ((s.pool i).cut setup.host s.heap.memory raw).2.free ≠ 0 := fun hzero => by
      have hnil := hnew.free_eq_nil_iff.mpr hzero
      have hlength := congrArg List.length hnil
      rw [List.length_reverse, chunkBlocks, List.length_map, List.length_range] at hlength
      exact absurd hshape.perChunk (by rw [hlength]; decide)
    obtain ⟨rest, -, hrest⟩ := hnew.pop arena hne
    rw [hchunk]
    refine hs.setPool hbegin hend (by omega) ?_ rfl rfl (fun p hp => ?_) (fun x => ?_) ⟨rest, hrest⟩
      ((hs.counted i).cut hshape raw _)
    · rw [← hs.toNat_end hsetup]
      exact hle
    · obtain hold | hblock := List.mem_append.mp hp
      · exact Or.inl hold
      · have hinside := hfit.inside hblock
        exact Or.inr ⟨Nat.le_trans hge hinside.1, by rw [hcur]; exact hinside.2⟩
    · by_cases hx : x < raw.toNat
      · refine Or.inl ?_
        show (threadChunk _ _ _ _ (s.pool i).free _).1 x = _
        rw [hfree]
        exact (hfit.threadChunk_spec s.heap.memory).2 x (Or.inl hx)
      · exact Or.inr (Or.inl (by omega))

theorem Inv.deallocate (hs : Inv setup s) {p : UInt64}
    (hpermitted : s.Permitted setup (.deallocate i p)) :
    Inv setup (s.setPool i ((s.pool i).deallocate setup.host s.heap p)) := by
  obtain ⟨free, hshape⟩ := hs.shape i
  unfold FixedBlockPool.deallocate
  split
  · exact hs.setPool rfl rfl (Nat.le_refl _) hs.cur_le rfl rfl (fun _ hp => Or.inl hp)
      (fun x => Or.inl rfl) ⟨free, hshape⟩ (hs.counted i)
  · rename_i hne
    have hp : p ∈ (s.pool i).out := hpermitted.resolve_left hne
    refine hs.setPool rfl rfl (Nat.le_refl _) hs.cur_le rfl rfl (fun _ hp => Or.inl hp)
      (fun x => ?_) ⟨p :: free, hshape.push hp⟩ ((hs.counted i).push p)
    have hblk := hshape.blkSize
    by_cases hx : p.toNat ≤ x ∧ x < p.toNat + 8
    · exact Or.inr (Or.inr ⟨p, hshape.mem_carved_of_out hp, hx.1, by omega⟩)
    · refine Or.inl (Memory.write_of_not_mem ?_)
      rwa [ByteOrder.length_image]

omit [DecidableEq ι] in
theorem Inv.direct_step (hs : Inv setup s) (hsetup : PoolSetup.Proper setup)
    {bytes align : UInt64} (hpermitted : s.Permitted setup (.direct bytes align)) :
    Inv setup (s.allocateDirect bytes align) := by
  have hexact : BumpArena.Exact s.heap.arena.end_.toNat _ _ _ := Or.inl hpermitted.2
  obtain ⟨hne, hge, hcur, hle⟩ | ⟨hzero, hsame⟩ :=
    hexact.allocate_cases hpermitted.1 (hs.null hsetup)
  · have hmove : s.heap.arena.cur.toNat ≤ (s.heap.arena.allocate bytes align).2.cur.toNat := by
      omega
    unfold allocateDirect
    dsimp only
    rw [if_neg hne]
    refine {
      begin_ := hs.begin_
      end_ := hs.end_
      le_cur := Nat.le_trans hs.le_cur hmove
      cur_le := ?_
      blkSize := hs.blkSize
      perChunk := hs.perChunk
      shape := hs.shape
      counted := hs.counted
      inside := fun i p hp => ⟨(hs.inside i p hp).1, Nat.le_trans (hs.inside i p hp).2 hmove⟩
      apart := hs.apart
      insideDirect := fun d hd => ?_
      apartDirect := fun d hd i p hp => ?_
      direct := List.pairwise_cons.mpr ⟨fun d hd => ?_, hs.direct⟩ }
    · show (s.heap.arena.allocate bytes align).2.cur.toNat ≤ _
      rw [hcur, ← hs.toNat_end hsetup]
      exact hle
    · obtain rfl | hd := List.mem_cons.mp hd
      · exact ⟨Nat.le_trans hs.le_cur hge, Nat.le_of_eq hcur.symm⟩
      · exact ⟨(hs.insideDirect d hd).1, Nat.le_trans (hs.insideDirect d hd).2 hmove⟩
    · obtain rfl | hd := List.mem_cons.mp hd
      · exact Or.inr (Nat.le_trans (hs.inside i p hp).2 hge)
      · exact hs.apartDirect d hd i p hp
    · exact Or.inr (Nat.le_trans (hs.insideDirect d hd).2 hge)
  · have hstay : s.allocateDirect bytes align = s := by
      unfold allocateDirect
      dsimp only
      rw [if_pos hzero, hsame]
    rw [hstay]
    exact hs

omit [DecidableEq ι] in
theorem Inv.write (hs : Inv setup s) {x : ℕ} {byte : UInt8}
    (hpermitted : s.Permitted setup (.write x byte)) : Inv setup (s.write x byte) := by
  refine { hs with shape := fun j => ?_ }
  obtain ⟨free, hshape⟩ := hs.shape j
  refine ⟨free, hshape.congr (fun q hq y hy hy' => ?_)⟩
  refine Memory.write_of_not_mem (fun hmem => ?_)
  have hblk := hshape.blkSize
  have hq' := hshape.mem_carved_of_free hq
  rw [List.length_singleton] at hmem
  -- the address is in a block that is handed out, or in a direct allocation
  obtain ⟨i, p, hp, hge, hlt⟩ | ⟨d, hd, hge, hlt⟩ := hpermitted
  · obtain ⟨free', hshape'⟩ := hs.shape i
    have hp' := hshape'.mem_carved_of_out hp
    have hapart : Apart q (s.pool j).blkSize p (s.pool i).blkSize := by
      by_cases hij : j = i
      · subst hij
        exact hshape.apart q hq' p hp' (hshape.ne_of_free_out hq hp)
      · exact hs.apart j i hij q hq' p hp'
    obtain hle | hle := hapart
    · omega
    · omega
  · obtain hle | hle := hs.apartDirect d hd j q hq'
    · omega
    · omega

/-- **The invariant is kept**, by every step that callers are permitted. -/
theorem inv_of_reachable (hsetup : PoolSetup.Proper setup) (m : Memory)
    (hs : (machine setup m).ReachableBy (Permitted setup) s) : Inv setup s := by
  refine hs.invariant (inv_new hsetup m) (fun s label s' _ hi hpermitted hstep => ?_)
  cases label with
  | allocate i =>
    cases hstep
    exact hi.allocate hsetup hpermitted
  | deallocate i p =>
    cases hstep
    exact hi.deallocate hpermitted
  | direct bytes align =>
    cases hstep
    exact hi.direct_step hsetup hpermitted
  | write x byte =>
    cases hstep
    exact hi.write hpermitted

/-- Blocks that do not overlap have no address in common. -/
theorem disjoint_range {p size q size' : UInt64} (h : Apart p size q size') :
    Disjoint (ArenaBlock.range ⟨p, size⟩) (ArenaBlock.range ⟨q, size'⟩) := by
  rw [Set.disjoint_left]
  rintro x ⟨hge, hlt⟩ ⟨hge', hlt'⟩
  dsimp only at hge hlt hge' hlt'
  obtain hle | hle := h
  · omega
  · omega

/-- **A block that `allocate` returns was not handed out**, by any pool. -/
theorem Inv.not_mem_out (hs : Inv setup s) (hsetup : PoolSetup.Proper setup)
    (hpermitted : s.Permitted setup (.allocate i)) {p : UInt64}
    (hp : ((s.pool i).allocate setup.toTarget s.heap).1 = some p) (j : ι) :
    p ∉ (s.pool j).out := by
  have hs' := hs.allocate hsetup hpermitted
  have hi : (s.setPool i ((s.pool i).allocate setup.toTarget s.heap).2).pool i
      = ((s.pool i).allocate setup.toTarget s.heap).2.2 := Function.update_self _ _ _
  obtain ⟨free, hshape⟩ := hs'.shape i
  rw [hi] at hshape
  have hout := out_allocate hp
  by_cases hj : j = i
  · subst hj
    have hnodup := (List.nodup_append.mp hshape.nodup_append).2.1
    rw [hout] at hnodup
    exact (List.nodup_cons.mp hnodup).1
  · intro hmem
    obtain ⟨free', hshape'⟩ := hs.shape j
    have hapart := hs'.apart i j (Ne.symm hj) p
    rw [hi, show (s.setPool i ((s.pool i).allocate setup.toTarget s.heap).2).pool j = s.pool j from
      Function.update_of_ne hj _ _] at hapart
    have hp' := hshape.mem_carved_of_out (hout ▸ List.mem_cons_self)
    have hblk := hshape.blkSize
    have hblk' := hshape'.blkSize
    obtain hle | hle := hapart hp' p (hshape'.mem_carved_of_out hmem)
    · omega
    · omega

/-- **Pools neither alias nor lose blocks.** In every run of pools over one arena:

* a pool keeps its size of blocks; its free list is a list without repetitions, threaded
  through its blocks, and a block it has cut is on the list or handed out, and not both;
* the blocks handed out by all pools, and the direct allocations, are disjoint ranges inside
  the buffer of the arena;
* a pool has taken the least number of chunks that hold as many blocks as were ever handed out
  at once;
* an `allocate` that throws changes nothing, and a block that it returns was not handed out, by
  any pool, and is from then on. -/
theorem pools_correct (setup : PoolSetup ι) (hsetup : PoolSetup.Proper setup) (m : Memory)
    (s : Pools ι) (hs : (machine setup m).ReachableBy (Permitted setup) s) :
    (∀ i, (s.pool i).blkSize
          = (FixedBlockPool.new (setup.blockSize i) (setup.blocksPerChunk i)).blkSize
        ∧ ∃ free : List UInt64, s.heap.memory.Threads setup.host 8 (s.pool i).free.toNat
            (free.map UInt64.toNat)
          ∧ (free ++ (s.pool i).out).Nodup
          ∧ (s.pool i).carved.Perm (free ++ (s.pool i).out))
      ∧ (∀ i j p q, p ∈ (s.pool i).out → q ∈ (s.pool j).out → i ≠ j ∨ p ≠ q →
        Disjoint (ArenaBlock.range ⟨p, (s.pool i).blkSize⟩)
          (ArenaBlock.range ⟨q, (s.pool j).blkSize⟩))
      ∧ (∀ i, ∀ p ∈ (s.pool i).out, ∀ d ∈ s.direct,
        Disjoint (ArenaBlock.range ⟨p, (s.pool i).blkSize⟩) d.range)
      ∧ s.direct.Pairwise (fun d e => Disjoint d.range e.range)
      ∧ (∀ b : ArenaBlock, b ∈ s.direct ∨ (∃ i, b.addr ∈ (s.pool i).out
          ∧ b.bytes = (s.pool i).blkSize) →
        setup.mem.toNat ≤ b.addr.toNat
          ∧ b.addr.toNat + b.bytes.toNat ≤ setup.mem.toNat + setup.size.toNat)
      ∧ (∀ i, IsLeast {k | (s.pool i).peak ≤ k * (setup.blocksPerChunk i).toNat}
        (s.pool i).chunks)
      ∧ ∀ i, s.Permitted setup (.allocate i) →
        (((s.pool i).allocate setup.toTarget s.heap).1 = none →
          ((s.pool i).allocate setup.toTarget s.heap).2 = (s.heap, s.pool i))
        ∧ ∀ p, ((s.pool i).allocate setup.toTarget s.heap).1 = some p →
          ((s.pool i).allocate setup.toTarget s.heap).2.2.out = p :: (s.pool i).out
            ∧ ∀ j, p ∉ (s.pool j).out := by
  have hi := inv_of_reachable hsetup m hs
  have hcarved : ∀ i, ∀ p ∈ (s.pool i).out, p ∈ (s.pool i).carved := fun i p hp => by
    obtain ⟨free, hshape⟩ := hi.shape i
    exact hshape.mem_carved_of_out hp
  refine ⟨fun i => ?_, fun i j p q hp hq hne => disjoint_range ?_, fun i p hp d hd => ?_, ?_,
    fun b hb => ?_, fun i => ?_, fun i hpermitted => ⟨fun hthrows => ?_, fun p hp =>
      ⟨out_allocate hp, hi.not_mem_out hsetup hpermitted hp⟩⟩⟩
  · obtain ⟨free, hshape⟩ := hi.shape i
    exact ⟨hi.blkSize i, free, hshape.threads, hshape.nodup_append, hshape.perm⟩
  · by_cases hij : i = j
    · subst hij
      obtain ⟨free, hshape⟩ := hi.shape i
      exact hshape.apart p (hcarved i p hp) q (hcarved i q hq) (hne.resolve_left (fun h => h rfl))
    · exact hi.apart i j hij p (hcarved i p hp) q (hcarved j q hq)
  · exact (disjoint_range (hi.apartDirect d hd i p (hcarved i p hp))).symm
  · exact hi.direct.imp disjoint_range
  · obtain hd | ⟨i, hp, hbytes⟩ := hb
    · have hinside := hi.insideDirect b hd
      exact ⟨hinside.1, Nat.le_trans hinside.2 hi.cur_le⟩
    · have hinside := hi.inside i b.addr (hcarved i b.addr hp)
      rw [hbytes]
      exact ⟨hinside.1, Nat.le_trans hinside.2 hi.cur_le⟩
  · rw [← hi.perChunk i]
    exact (hi.counted i).isLeast
  · obtain ⟨free, hshape⟩ := hi.shape i
    obtain heq | ⟨-, heq⟩ | ⟨raw, arena, -, -, -, -, -, -, -, heq⟩ :=
      FixedBlockPool.allocate_cases hshape.blkSize hpermitted.chunkExact (hi.null hsetup)
    · rw [heq]
    · rw [heq] at hthrows
      cases hthrows
    · rw [heq] at hthrows
      cases hthrows

/-- Two pools that take two blocks at a time, of eight bytes each. -/
def twoPools : PoolSetup Bool := ⟨.linux, fun _ => 4, fun _ => 2, 4096, 256⟩

/-- The first hands out three blocks and takes one back, and the second hands out one. -/
def threeBlocks : List (Label Bool) :=
  [.allocate false, .allocate true, .direct 8 8, .allocate false, .allocate false,
    .deallocate false 4096]

/-- After that run the first pool has taken two chunks, and its list is led by the block it was
given back, which it returns next. -/
theorem pools_correct_threeBlocks :
    ∃ s, (machine twoPools (fun _ => 0)).run (new twoPools (fun _ => 0)) threeBlocks = some s
      ∧ (s.pool false).out = [4152, 4104] ∧ (s.pool false).free = 4096
      ∧ IsLeast {k | 3 ≤ k * 2} 2
      ∧ Disjoint (ArenaBlock.range ⟨4152, 8⟩) (ArenaBlock.range ⟨4120, 8⟩)
      ∧ ((s.pool false).allocate .linux s.heap).1 = some 4096
      ∧ ((s.pool false).allocate .linux s.heap).2.2.out = [4096, 4152, 4104]
      ∧ ∀ j, 4096 ∉ (s.pool j).out := by
  have hsetup : PoolSetup.Proper twoPools :=
    ⟨fun _ => (by decide : 1 ≤ (2 : UInt64).toNat), by decide, fun h => by cases h⟩
  have halong : (machine twoPools (fun _ => 0)).Along (Permitted twoPools)
      (new twoPools (fun _ => 0)) threeBlocks := by
    refine .cons (fun _ => by decide) rfl (.cons (fun _ => by decide) rfl
      (.cons ⟨⟨3, rfl⟩, by decide⟩ rfl (.cons (fun _ => by decide) rfl
        (.cons (fun _ => by decide) rfl (.cons (Or.inr ?_) rfl trivial)))))
    decide
  have hreach : ∀ s, (machine twoPools (fun _ => 0)).run (new twoPools (fun _ => 0)) threeBlocks
      = some s → (machine twoPools (fun _ => 0)).ReachableBy (Permitted twoPools) s :=
    fun s hrun => Machine.ReachableBy.run_along .init halong hrun
  obtain ⟨-, hdisjoint, -, -, -, hleast, hallocate⟩ :=
    pools_correct twoPools hsetup _ _ (hreach _ rfl)
  obtain ⟨hout, hfresh⟩ := (hallocate false (fun h => absurd h (by decide))).2 4096 rfl
  exact ⟨_, rfl, by decide, by decide, hleast false,
    hdisjoint false true 4152 4120 (by decide) (by decide) (Or.inl (by decide)),
    rfl, hout, hfresh⟩

end Pools
