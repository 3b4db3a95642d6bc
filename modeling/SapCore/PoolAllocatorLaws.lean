import SapCore.PoolAllocator

/-!
# When copies and rebinds honour the laws of allocators

Containers rely on three laws: an allocator that is rebound to another element type and
back is equal to the one it came from; whether two allocators are equal does not change
by what they allocate; and what one of two equal allocators hands out may be given back
to the other, and is used again.

The pool is made lazily and in one object only, so all three fail around the first
single element. They hold in runs in which an allocator is rebound only as long as it has
no pool, and asks for its first single element only when no other allocator of its
element type is without a pool – and in which no request makes the sums of the arena wrap,
so that pools do not come to lie on one another.
-/

open Alignment

namespace FixedBlockPool

variable {target : Target} {h : ArenaHeap} {pool : FixedBlockPool}

/-- The sizes of a pool that was made properly. -/
structure Sized (pool : FixedBlockPool) : Prop where
  blkSize : 8 ≤ pool.blkSize.toNat
  perChunk : 1 ≤ pool.perChunk.toNat

/-- The cursor has moved on. -/
structure MovesOn (arena arena' : LinearArena) : Prop where
  end_ : arena'.end_ = arena.end_
  cur : arena.cur.toNat ≤ arena'.cur.toNat
  null : arena'.cur = 0 → arena'.end_ = 0

/-- **What `allocate` keeps, and that what it returns is not null.** -/
theorem allocate_spec (hsized : pool.Sized) (hexact : ChunkExact target h.arena pool)
    (hnull : h.arena.cur = 0 → h.arena.end_ = 0) :
    MovesOn h.arena (pool.allocate target h).2.1.arena
      ∧ (pool.allocate target h).2.2.Sized
      ∧ ∀ p, (pool.allocate target h).1 = some p → p ≠ 0 := by
  obtain heq | ⟨hfree, heq⟩ | ⟨raw, arena, -, hfit, hge, -, hend, hcur, -, heq⟩ :=
    allocate_cases hsized.blkSize hexact hnull
  · rw [heq]
    exact ⟨⟨rfl, Nat.le_refl _, hnull⟩, hsized, fun p hp => by cases hp⟩
  · rw [heq]
    refine ⟨⟨rfl, Nat.le_refl _, hnull⟩, ⟨hsized.blkSize, hsized.perChunk⟩, fun p hp => ?_⟩
    obtain rfl : pool.free = p := Option.some.inj hp
    exact hfree
  · have hraw := toNat_ne_zero hfit.nonnull
    have hzero : (0 : UInt64).toNat = 0 := rfl
    rw [heq]
    refine ⟨⟨hend, by dsimp only [pop]; omega, fun hnull => ?_⟩,
      ⟨hsized.blkSize, hsized.perChunk⟩, fun p hp => ?_⟩
    · have hcur' : arena.cur = 0 := hnull
      rw [hcur'] at hcur
      omega
    · -- the block is the last of the chunk
      obtain ⟨k, hk⟩ := Nat.exists_eq_add_of_le' hsized.perChunk
      have hlast : (pool.cut target.host h.memory raw).2.free = blockAt raw pool.blkSize k := by
        simp only [cut, hk, threadChunk]
      obtain rfl : _ = p := Option.some.inj hp
      rw [hlast]
      intro hnull
      have hpos := hfit.toNat_block (i := k) (by omega)
      rw [hnull] at hpos
      omega

/-- **A block that is given back is handed out next.** -/
theorem allocate_deallocate {p : UInt64} (hp : p ≠ 0) :
    ((pool.deallocate target.host h p).2.allocate target
      (pool.deallocate target.host h p).1).1 = some p := by
  simp [deallocate, allocate, hp, pop]

end FixedBlockPool

namespace Allocators

open FixedBlockPool

variable {ν θ : Type} {setup : AllocatorSetup θ}

/-- **What runs keep**: the pools lie before the cursor of the arena, and an allocator that has
a pool refers to one of them. -/
structure Inv (s : Allocators ν θ) : Prop where
  null : s.heap.arena.cur = 0 → s.heap.arena.end_ = 0
  pools : ∀ q pool, s.pools q = some pool →
    q ≠ 0 ∧ pool.Sized ∧ q.toNat < s.heap.arena.cur.toNat
  refers : ∀ x a, s.allocator x = some a → a.pool ≠ 0 → s.pools a.pool ≠ none

variable {s s' : Allocators ν θ} {x y : ν} {a b : PoolAllocator θ} {q : UInt64}

theorem inv_new (hsetup : AllocatorSetup.Proper setup) (m : Memory) :
    Inv (new setup m : Allocators ν θ) where
  null hcur := by
    have hmem : setup.mem = 0 := hcur
    show setup.mem + setup.size = 0
    rw [hmem, hsetup.nonnull hmem]
    rfl
  pools _ _ hpool := by cases hpool
  refers _ _ ha := by cases ha

/-- A pool that an allocator refers to lies before the cursor. -/
theorem Inv.pool_lt (hi : Inv s) (ha : s.allocator x = some a) (hpool : a.pool ≠ 0) :
    a.pool.toNat < s.heap.arena.cur.toNat := by
  cases hq : s.pools a.pool with
  | none => exact absurd hq (hi.refers x a ha hpool)
  | some pool => exact (hi.pools a.pool pool hq).2.2

/-- The arena has moved on. -/
theorem Inv.setArena (hi : Inv s) {arena : LinearArena} (hmoves : MovesOn s.heap.arena arena) :
    Inv (s.setArena arena) where
  null := hmoves.null
  pools q pool hpool := by
    obtain ⟨hq, hsized, hlt⟩ := hi.pools q pool hpool
    exact ⟨hq, hsized, Nat.lt_of_lt_of_le hlt hmoves.cur⟩
  refers := hi.refers

/-- A pool has changed. -/
theorem Inv.setPool (hi : Inv s) {h : ArenaHeap} {pool : FixedBlockPool} (hq : q ≠ 0)
    (hlt : q.toNat < h.arena.cur.toNat) (hmoves : MovesOn s.heap.arena h.arena)
    (hsized : pool.Sized) : Inv (s.setPool q (h, pool)) where
  null := hmoves.null
  pools := (Function.forall_update_iff s.pools (fun q p => ∀ pool, p = some pool →
    q ≠ 0 ∧ pool.Sized ∧ q.toNat < h.arena.cur.toNat)).mpr
      ⟨fun pool' heq => by
        cases heq
        exact ⟨hq, hsized, hlt⟩,
      fun q' _ pool' hpool' => by
        obtain ⟨hq', hsized', hlt'⟩ := hi.pools q' pool' hpool'
        exact ⟨hq', hsized', Nat.lt_of_lt_of_le hlt' hmoves.cur⟩⟩
  refers x a ha hpool := by
    show Function.update s.pools q (some pool) a.pool ≠ none
    by_cases heq : a.pool = q
    · rw [heq, Function.update_self]
      exact Option.some_ne_none _
    · rw [Function.update_of_ne heq]
      exact hi.refers x a ha hpool

variable [DecidableEq ν]

theorem Inv.set (hi : Inv s) {a : Option (PoolAllocator θ)}
    (ha : ∀ b, a = some b → b.pool ≠ 0 → s.pools b.pool ≠ none) : Inv (s.set x a) where
  null := hi.null
  pools := hi.pools
  refers := by
    intro y
    show ∀ b, Function.update s.allocator x a y = some b → _
    by_cases hy : y = x
    · rw [hy, Function.update_self]
      exact ha
    · rw [Function.update_of_ne hy]
      exact hi.refers y

/-! ## The condition -/

/-- **The condition on a step.** An allocator is rebound while it has no pool; it makes its pool
while no other allocator of its element type is without one; and no request to the arena is
one whose sums wrap. -/
def Careful (setup : AllocatorSetup θ) (s : Allocators ν θ) : Label ν θ → Prop
  | .rebind _ y _ => ∀ b, s.allocator y = some b → b.pool = 0
  | .allocate x n => ∀ a, s.allocator x = some a →
    (n ≠ 1 → BumpArena.Exact s.heap.arena.end_.toNat s.heap.arena.cur
      (n * setup.sizeOf a.type) (setup.alignOf a.type))
    ∧ (n = 1 → a.pool = 0 →
      BumpArena.Exact s.heap.arena.end_.toNat s.heap.arena.cur setup.poolSize poolAlign
        ∧ ((s.heap.arena.allocate setup.poolSize poolAlign).1 ≠ 0 →
          ∀ y b, y ≠ x → s.allocator y = some b → b.type = a.type → b.pool ≠ 0))
    ∧ (n = 1 → ∀ q s', ensurePool setup s x a = (some q, s') → ∀ pool, s'.pools q = some pool →
      ChunkExact setup.toTarget s'.heap.arena pool)
  | _ => True

/-- **What `ensure_pool` does**: nothing where there is a pool; otherwise it throws and changes
nothing, or makes a pool past the cursor. -/
theorem Inv.ensurePool_cases (hi : Inv s) (setup : AllocatorSetup θ) (x : ν) (a : PoolAllocator θ)
    (hexact : a.pool = 0 →
      BumpArena.Exact s.heap.arena.end_.toNat s.heap.arena.cur setup.poolSize poolAlign) :
    (a.pool ≠ 0 ∧ ensurePool setup s x a = (some a.pool, s))
      ∨ (a.pool = 0 ∧ ensurePool setup s x a = (none, s))
      ∨ ∃ q arena pool, a.pool = 0 ∧ (s.heap.arena.allocate setup.poolSize poolAlign).1 ≠ 0 ∧ q ≠ 0
        ∧ pool.Sized ∧ s.heap.arena.cur.toNat ≤ q.toNat ∧ q.toNat < arena.cur.toNat
        ∧ MovesOn s.heap.arena arena
        ∧ ensurePool setup s x a
          = (some q, ((s.setArena arena).setPool q ((s.setArena arena).heap, pool)).set x
            (some { a with pool := q })) := by
  by_cases hpool : a.pool = 0
  · obtain ⟨hne, hge, hcur, -⟩ | ⟨hzero, hsame⟩ :=
      (hexact hpool).allocate_cases ⟨3, rfl⟩ hi.null
    · have hbytes := setup.le_poolSize
      have hone : 1 ≤ blocksPerChunk.toNat := by decide
      have hshape : Shape setup.host s.heap.memory _ [] :=
        shape_new (setup.sizeOf a.type) hone s.heap.memory
      refine Or.inr (Or.inr ⟨_, (s.heap.arena.allocate setup.poolSize poolAlign).2,
        .new (setup.sizeOf a.type) blocksPerChunk, hpool, hne, hne,
        ⟨hshape.blkSize, hshape.perChunk⟩, hge, by omega, ⟨rfl, by omega, fun hnull => ?_⟩, ?_⟩)
      · have hraw := toNat_ne_zero hne
        have hzero : (0 : UInt64).toNat = 0 := rfl
        rw [hnull] at hcur
        omega
      · simp only [ensurePool, hpool, ne_eq, not_true_eq_false, if_false, if_neg hne]
    · refine Or.inr (Or.inl ⟨hpool, ?_⟩)
      simp only [ensurePool, hpool, ne_eq, not_true_eq_false, if_false, if_pos hzero, hsame]
      rfl
  · exact Or.inl ⟨hpool, if_pos hpool⟩

omit [DecidableEq ν] in
/-- `allocate` of a pool that is there. -/
theorem Inv.allocateFrom (hi : Inv s) (setup : AllocatorSetup θ) {pool : FixedBlockPool}
    (hq : s.pools q = some pool) (hexact : ChunkExact setup.toTarget s.heap.arena pool) :
    Inv (allocateFrom setup s q).2
      ∧ (allocateFrom setup s q).2.allocator = s.allocator
      ∧ ∀ p, (allocateFrom setup s q).1 = some p → p ≠ 0 := by
  obtain ⟨hne, hsized, hlt⟩ := hi.pools q pool hq
  obtain ⟨hmoves, hsized', hnonnull⟩ := allocate_spec hsized hexact hi.null
  simp only [Allocators.allocateFrom, hq]
  exact ⟨hi.setPool hne (Nat.lt_of_lt_of_le hlt hmoves.cur) hmoves hsized', rfl, hnonnull⟩

/-- **What a step may do to the pool of an allocator**: nothing; or a new one is made, past the
cursor, while the other allocators of the element type all have theirs. -/
def KeepsPool (s : Allocators ν θ) (x : ν) (a a' : PoolAllocator θ) : Prop :=
  a'.type = a.type
    ∧ (a'.pool = a.pool
      ∨ (a.pool = 0 ∧ a'.pool ≠ 0 ∧ s.heap.arena.cur.toNat ≤ a'.pool.toNat
        ∧ ∀ y b, y ≠ x → s.allocator y = some b → b.type = a.type → b.pool ≠ 0))

/-- **What `allocate` of an allocator does.** -/
theorem Inv.allocate (hi : Inv s) (hsetup : AllocatorSetup.Proper setup)
    (ha : s.allocator x = some a) {n : UInt64} (hcareful : Careful setup s (.allocate x n)) :
    Inv (allocate setup s x a n).2
      ∧ (∀ y, y ≠ x → (allocate setup s x a n).2.allocator y = s.allocator y)
      ∧ (∃ a', (allocate setup s x a n).2.allocator x = some a' ∧ KeepsPool s x a a'
        ∧ (n = 1 → ∀ p, (allocate setup s x a n).1 = some p → p ≠ 0 ∧ a'.pool ≠ 0)) := by
  obtain ⟨hmany, hfirst, hchunk⟩ := hcareful a ha
  by_cases hn : n = 1
  · subst hn
    obtain ⟨hpool, heq⟩ | ⟨hpool, heq⟩ | ⟨q, arena, pool, hpool, hgets, hq, hsized, hge, hlt, hmoves, heq⟩ :=
      hi.ensurePool_cases setup x a (fun hpool => (hfirst rfl hpool).1)
    · -- the pool is there
      cases hpools : s.pools a.pool with
      | none => exact absurd hpools (hi.refers x a ha hpool)
      | some pool =>
        obtain ⟨hinv, hsame, hnonnull⟩ :=
          hi.allocateFrom setup hpools (hchunk rfl _ _ heq pool hpools)
        have hallocate : Allocators.allocate setup s x a 1
            = Allocators.allocateFrom setup s a.pool := by
          simp only [Allocators.allocate, if_true, heq]
        rw [hallocate, hsame]
        exact ⟨hinv, fun _ _ => rfl, a, ha, ⟨rfl, Or.inl rfl⟩, fun _ p hp => ⟨hnonnull p hp, hpool⟩⟩
    · have hallocate : Allocators.allocate setup s x a 1 = (none, s) := by
        simp only [Allocators.allocate, if_true, heq]
      rw [hallocate]
      exact ⟨hi, fun _ _ => rfl, a, ha, ⟨rfl, Or.inl rfl⟩, fun _ p hp => by cases hp⟩
    · -- the pool is made
      have hinv : Inv (((s.setArena arena).setPool q ((s.setArena arena).heap, pool)).set x
          (some { a with pool := q })) := by
        have harena := hi.setArena hmoves
        refine (harena.setPool hq hlt ⟨rfl, Nat.le_refl _, harena.null⟩ hsized).set ?_
        intro b hb _
        cases hb
        show Function.update s.pools q (some pool) q ≠ none
        rw [Function.update_self]
        exact Option.some_ne_none _
      have hpools : (((s.setArena arena).setPool q ((s.setArena arena).heap, pool)).set x
          (some { a with pool := q })).pools q = some pool := Function.update_self _ _ _
      obtain ⟨hinv', hsame, hnonnull⟩ :=
        hinv.allocateFrom setup hpools (hchunk rfl _ _ heq pool hpools)
      have hallocate : Allocators.allocate setup s x a 1 = Allocators.allocateFrom setup
          (((s.setArena arena).setPool q ((s.setArena arena).heap, pool)).set x
            (some { a with pool := q })) q := by
        simp only [Allocators.allocate, if_true, heq]
      rw [hallocate, hsame]
      refine ⟨hinv', fun y hy => Function.update_of_ne hy _ _, { a with pool := q },
        Function.update_self _ _ _, ⟨rfl, Or.inr ⟨hpool, hq, hge, (hfirst rfl hpool).2 hgets⟩⟩,
        fun _ p hp => ⟨hnonnull p hp, hq⟩⟩
  · have hallocate : (Allocators.allocate setup s x a n).2 = s.setArena
        (s.heap.arena.allocate (n * setup.sizeOf a.type) (setup.alignOf a.type)).2 := by
      simp only [Allocators.allocate, if_neg hn]
    rw [hallocate]
    refine ⟨hi.setArena ?_, fun _ _ => rfl, a, ha, ⟨rfl, Or.inl rfl⟩, fun h => absurd h hn⟩
    obtain ⟨hne, hge, hcur, -⟩ | ⟨-, hsame⟩ :=
      (hmany hn).allocate_cases (hsetup.alignOf a.type) hi.null
    · refine ⟨rfl, by omega, fun hnull => ?_⟩
      have hraw := toNat_ne_zero hne
      have hzero : (0 : UInt64).toNat = 0 := rfl
      rw [hnull] at hcur
      omega
    · rw [hsame]
      exact ⟨rfl, Nat.le_refl _, hi.null⟩

omit [DecidableEq ν] in
/-- What `deallocate` of an allocator keeps. -/
theorem Inv.deallocate (hi : Inv s) (setup : AllocatorSetup θ) (a : PoolAllocator θ)
    (p n : UInt64) :
    Inv (deallocate setup s a p n) ∧ (deallocate setup s a p n).allocator = s.allocator := by
  unfold Allocators.deallocate
  split
  · exact ⟨hi, rfl⟩
  · split
    · split
      · rename_i pool hpools
        obtain ⟨hq, hsized, hlt⟩ := hi.pools _ pool hpools
        refine ⟨?_, rfl⟩
        unfold FixedBlockPool.deallocate
        split
        · exact hi.setPool hq hlt ⟨rfl, Nat.le_refl _, hi.null⟩ hsized
        · exact hi.setPool hq hlt ⟨rfl, Nat.le_refl _, hi.null⟩ ⟨hsized.blkSize, hsized.perChunk⟩
      · exact ⟨hi, rfl⟩
    · exact ⟨hi, rfl⟩

/-! ## Every step -/

/-- The step does not overwrite an allocator, or end its life. -/
def Spares (x : ν) : Label ν θ → Prop
  | .assign y _ => y ≠ x
  | .destroy y => y ≠ x
  | _ => True

variable [DecidableEq θ] {label : Label ν θ}

/-- **What a step does to an allocator that it spares.** -/
theorem Inv.step (hi : Inv s) (hsetup : AllocatorSetup.Proper setup)
    (hcareful : Careful setup s label) (hstep : s.step setup label = some s') :
    Inv s' ∧ ∀ x a, Spares x label → s.allocator x = some a →
      ∃ a', s'.allocator x = some a' ∧ KeepsPool s x a a' := by
  have hkeeps : ∀ x a, s.allocator x = some a → ∃ a', s.allocator x = some a' ∧ KeepsPool s x a a' :=
    fun x a ha => ⟨a, ha, rfl, Or.inl rfl⟩
  -- an allocator other than the one that is written
  have hother : ∀ {y : ν} {b : Option (PoolAllocator θ)} {x : ν} {a : PoolAllocator θ}, x ≠ y →
      s.allocator x = some a → ∃ a', (s.set y b).allocator x = some a' ∧ KeepsPool s x a a' :=
    fun {y b x a} hne ha => ⟨a, (Function.update_of_ne hne _ _).trans ha, rfl, Or.inl rfl⟩
  cases effect_of_step hstep with
  | @set _ y b hy hb _ =>
    refine ⟨hi.set (fun c hc hpool => ?_), fun x a hspares ha => hother (fun heq => ?_) ha⟩
    · obtain ⟨z, hz⟩ := hb c hc hpool
      exact hi.refers z c hz hpool
    · subst heq
      obtain hnone | ⟨z, rfl⟩ | rfl := hy
      · cases hnone.symm.trans ha
      · exact hspares rfl
      · exact hspares rfl
  | @allocate y n b hb =>
    obtain ⟨hinv, hsame, b', hb', hkept, -⟩ := hi.allocate hsetup hb hcareful
    refine ⟨hinv, fun x a _ ha => ?_⟩
    by_cases hxy : x = y
    · subst hxy
      cases ha.symm.trans hb
      exact ⟨b', hb', hkept⟩
    · rw [hsame x hxy]
      exact hkeeps x a ha
  | @deallocate y p n b hb =>
    obtain ⟨hinv, hsame⟩ := hi.deallocate setup b p n
    rw [hsame]
    exact ⟨hinv, fun x a _ ha => hkeeps x a ha⟩

theorem inv_of_reachable (hsetup : AllocatorSetup.Proper setup) {m : Memory}
    (hs : (machine setup m).ReachableBy (Careful setup) s) : Inv s :=
  hs.invariant (I := Inv) (inv_new hsetup m)
    (fun _ _ _ _ hi hcareful hstep => (hi.step hsetup hcareful hstep).1)

/-! ## The laws -/

omit [DecidableEq ν] [DecidableEq θ] in
/-- A new pool is not one that another allocator has. -/
theorem Inv.fresh_ne (hi : Inv s) (hb : s.allocator y = some b) (hpool : b.pool ≠ 0)
    (hge : s.heap.arena.cur.toNat ≤ q.toNat) : q ≠ b.pool := by
  rintro rfl
  exact absurd (hi.pool_lt hb hpool) (Nat.not_lt.mpr hge)

omit [DecidableEq ν] [DecidableEq θ] in
/-- **Two allocators that keep their pools, or get new ones, stay equal or unequal.** -/
theorem Inv.equal_of_keeps (hi : Inv s) {a' b' : PoolAllocator θ} (hne : x ≠ y)
    (ha : s.allocator x = some a) (hb : s.allocator y = some b) (htype : a.type = b.type)
    (hka : KeepsPool s x a a') (hkb : KeepsPool s y b b') : a'.equal b' = a.equal b := by
  unfold PoolAllocator.equal
  obtain ⟨-, hsame | ⟨hzero, -, hge, hothers⟩⟩ := hka
  · obtain ⟨-, hsame' | ⟨hzero', -, hge', hothers'⟩⟩ := hkb
    · rw [hsame, hsame']
    · -- the second got a pool, so the first has one
      have hpool : a.pool ≠ 0 := hothers' x a hne ha htype
      have hnew := hi.fresh_ne ha hpool hge'
      rw [hsame, hzero', beq_eq_false_iff_ne.mpr hpool, beq_eq_false_iff_ne.mpr (Ne.symm hnew)]
  · have hpool : b.pool ≠ 0 := hothers y b (Ne.symm hne) hb htype.symm
    have hnew := hi.fresh_ne hb hpool hge
    obtain ⟨-, hsame' | ⟨hzero', -⟩⟩ := hkb
    · rw [hsame', hzero, beq_eq_false_iff_ne.mpr (Ne.symm hpool), beq_eq_false_iff_ne.mpr hnew]
    · exact absurd hzero' hpool

/-- **Along a run that spares two allocators they stay equal or unequal**, and a pool that one
has stays its own. -/
theorem Inv.along (hsetup : AllocatorSetup.Proper setup) {m : Memory} {labels : List (Label ν θ)}
    (hi : Inv s) (halong : (machine setup m).Along (Careful setup) s labels)
    (hrun : (machine setup m).run s labels = some s')
    (hspares : ∀ label ∈ labels, Spares x label ∧ Spares y label)
    (ha : s.allocator x = some a) (hb : s.allocator y = some b) (htype : a.type = b.type) :
    Inv s' ∧ ∃ a' b', s'.allocator x = some a' ∧ s'.allocator y = some b'
      ∧ a'.equal b' = a.equal b ∧ (a.pool ≠ 0 → a'.pool = a.pool) := by
  induction labels generalizing s a b with
  | nil =>
    cases hrun
    exact ⟨hi, a, b, ha, hb, rfl, fun _ => rfl⟩
  | cons label labels ih =>
    rw [Machine.run, Option.bind_eq_some_iff] at hrun
    obtain ⟨s₁, hstep, hrest⟩ := hrun
    obtain ⟨hi₁, hkeeps⟩ := hi.step hsetup halong.1 hstep
    obtain ⟨hx, hy⟩ := hspares label List.mem_cons_self
    obtain ⟨a₁, ha₁, hka⟩ := hkeeps x a hx ha
    obtain ⟨b₁, hb₁, hkb⟩ := hkeeps y b hy hb
    obtain ⟨hi', a', b', ha', hb', hequal, hpool⟩ := ih hi₁ (halong.2 s₁ hstep) hrest
      (fun l hl => hspares l (List.mem_cons_of_mem label hl)) ha₁ hb₁
      (by rw [hka.1, hkb.1, htype])
    have hsame : a₁.equal b₁ = a.equal b := by
      by_cases hxy : x = y
      · subst hxy
        cases ha.symm.trans hb
        cases ha₁.symm.trans hb₁
        simp [PoolAllocator.equal]
      · exact hi.equal_of_keeps hxy ha hb htype hka hkb
    refine ⟨hi', a', b', ha', hb', hequal.trans hsame, fun hne => ?_⟩
    obtain hkept | ⟨hzero, -⟩ := hka.2
    · rw [hpool (by rw [hkept]; exact hne), hkept]
    · exact absurd hzero hne

/-- **The laws of allocators.** In every run whose steps meet the condition, from every state it
reaches:

* an allocator that may be rebound, rebound to another element type and back, is equal to what
  it was;
* whether two allocators of one type are equal is not changed by what is done to either,
  assignment apart;
* a block that an allocator hands out as a single element, given back through one that was
  equal to it then, is what it hands out next. -/
theorem laws_of_careful (setup : AllocatorSetup θ) (hsetup : AllocatorSetup.Proper setup)
    (m : Memory) (s : Allocators ν θ) (hs : (machine setup m).ReachableBy (Careful setup) s) :
    (∀ x y t a, s.allocator x = some a → Careful setup s (.rebind y x t) →
        ((a.rebind t).rebind a.type).equal a = true)
      ∧ (∀ labels s' x y a b, (machine setup m).Along (Careful setup) s labels →
        (machine setup m).run s labels = some s' →
        (∀ label ∈ labels, Spares x label ∧ Spares y label) →
        s.allocator x = some a → s.allocator y = some b → a.type = b.type →
          ∃ a' b', s'.allocator x = some a' ∧ s'.allocator y = some b'
            ∧ a'.equal b' = a.equal b)
      ∧ ∀ x y a b p s₁ labels s₂, s.allocator x = some a → s.allocator y = some b →
        a.type = b.type → a.equal b = true → Careful setup s (.allocate x 1) →
        allocate setup s x a 1 = (some p, s₁) →
        (machine setup m).Along (Careful setup) s₁ labels →
        (machine setup m).run s₁ labels = some s₂ →
        (∀ label ∈ labels, Spares x label ∧ Spares y label) →
          ∃ a₂ b₂, s₂.allocator x = some a₂ ∧ s₂.allocator y = some b₂
            ∧ (allocate setup (deallocate setup s₂ b₂ p 1) x a₂ 1).1 = some p := by
  have hi := inv_of_reachable hsetup hs
  refine ⟨fun x y t a ha hcareful => ?_,
    fun labels s' x y a b halong hrun hspares ha hb htype => ?_,
    fun x y a b p s₁ labels s₂ ha hb htype hequal hcareful hallocate halong hrun hspares => ?_⟩
  · have hpool : a.pool = 0 := hcareful a ha
    simp [PoolAllocator.equal, PoolAllocator.rebind, hpool]
  · obtain ⟨-, a', b', ha', hb', hequal, -⟩ :=
      hi.along hsetup halong hrun hspares ha hb htype
    exact ⟨a', b', ha', hb', hequal⟩
  · obtain ⟨hi₁, hsame, a₁, ha₁, hkept, hreturns⟩ := hi.allocate hsetup ha hcareful
    rw [hallocate] at hi₁ hsame ha₁ hreturns
    obtain ⟨hp, hpool₁⟩ := hreturns rfl p rfl
    -- right after the call, the two still share the pool
    obtain ⟨b₁, hb₁, htype₁, hequal₁⟩ : ∃ b₁, s₁.allocator y = some b₁ ∧ a₁.type = b₁.type
        ∧ a₁.equal b₁ = true := by
      by_cases hxy : x = y
      · subst hxy
        exact ⟨a₁, ha₁, rfl, by simp [PoolAllocator.equal]⟩
      · refine ⟨b, by rw [hsame y (Ne.symm hxy), hb], hkept.1.trans htype, ?_⟩
        rw [hi.equal_of_keeps hxy ha hb htype hkept ⟨rfl, Or.inl rfl⟩]
        exact hequal
    obtain ⟨hi₂, a₂, b₂, ha₂, hb₂, hequal₂, hpool₂⟩ :=
      hi₁.along hsetup halong hrun hspares ha₁ hb₁ htype₁
    have hne : a₂.pool ≠ 0 := by
      rw [hpool₂ hpool₁]
      exact hpool₁
    have hshare : b₂.pool = a₂.pool := (beq_iff_eq.mp (hequal₂.trans hequal₁)).symm
    refine ⟨a₂, b₂, ha₂, hb₂, ?_⟩
    cases hpools : s₂.pools a₂.pool with
    | none => exact absurd hpools (hi₂.refers x a₂ ha₂ hne)
    | some pool =>
      have hdeallocate : deallocate setup s₂ b₂ p 1
          = s₂.setPool a₂.pool (pool.deallocate setup.host s₂.heap p) := by
        simp [Allocators.deallocate, hp, hshare, hne, hpools]
      have hpools' : (s₂.setPool a₂.pool (pool.deallocate setup.host s₂.heap p)).pools a₂.pool
          = some (pool.deallocate setup.host s₂.heap p).2 := Function.update_self _ _ _
      rw [hdeallocate]
      simp only [Allocators.allocate, if_true, ensurePool, if_pos hne, Allocators.allocateFrom,
        hpools']
      exact allocate_deallocate hp

/-- Two element types, of eight and of sixteen bytes. -/
def twoTypes : AllocatorSetup Bool :=
  ⟨.linux, fun t => if t then 16 else 8, fun _ => 8, 4096, 65536⟩

/-- An allocator makes its pool, and is copied then. -/
def copiedLate : List (Label ℕ Bool) := [.construct 0 false, .allocate 0 1, .copy 1 0]

/-- What it hands out afterwards may be given back through the copy. -/
theorem laws_of_careful_copiedLate :
    ∃ s : Allocators ℕ Bool, ∃ a b p s₁,
      (machine twoTypes (fun _ => 0)).run (new twoTypes (fun _ => 0)) copiedLate = some s
        ∧ s.allocator 0 = some a ∧ s.allocator 1 = some b
        ∧ allocate twoTypes s 0 a 1 = (some p, s₁)
        ∧ ∃ a₂ b₂, s₁.allocator 0 = some a₂ ∧ s₁.allocator 1 = some b₂
          ∧ (allocate twoTypes (deallocate twoTypes s₁ b₂ p 1) 0 a₂ 1).1 = some p := by
  have hsetup : AllocatorSetup.Proper twoTypes := ⟨fun _ => ⟨3, rfl⟩, fun h => by cases h⟩
  have hfirst : Careful twoTypes
      ((new twoTypes (fun _ => 0) : Allocators ℕ Bool).set 0 (some (.new false)))
      (.allocate 0 1) := by
    intro a ha
    cases ha
    refine ⟨fun h => absurd rfl h, fun _ _ => ⟨Or.inl (by decide), fun _ y b hy hb => ?_⟩,
      fun _ q s' heq pool hpool hfree => ?_⟩
    · rw [show ((new twoTypes (fun _ => 0) : Allocators ℕ Bool).set 0 (some (.new false))).allocator y
        = none from Function.update_of_ne hy _ _] at hb
      cases hb
    · cases heq
      cases hpool
      exact ⟨by decide, Or.inl (by decide)⟩
  have halong : (machine twoTypes (fun _ => 0)).Along (Careful twoTypes)
      (new twoTypes (fun _ => 0)) copiedLate :=
    .cons trivial rfl (.cons hfirst rfl (.cons trivial rfl trivial))
  have hreach : ∀ s, (machine twoTypes (fun _ => 0)).run (new twoTypes (fun _ => 0)) copiedLate
      = some s → (machine twoTypes (fun _ => 0)).ReachableBy (Careful twoTypes) s :=
    fun s hrun => Machine.ReachableBy.run_along .init halong hrun
  obtain ⟨-, -, hreuse⟩ := laws_of_careful twoTypes hsetup _ _ (hreach _ rfl)
  refine ⟨_, _, _, 6160, _, rfl, rfl, rfl, rfl,
    hreuse 0 1 _ _ 6160 _ [] _ rfl rfl rfl rfl (fun a ha => ?_) rfl trivial rfl (by simp)⟩
  cases ha
  refine ⟨fun h => absurd rfl h, fun _ hpool => absurd hpool (by decide),
    fun _ q s' heq pool hpool hfree => ?_⟩
  cases heq
  cases hpool
  exact absurd hfree (by decide)

/-- An allocator is copied before it makes its pool. -/
def copiedEarly : List (Label ℕ Bool) := [.construct 0 false, .copy 1 0]

/-- **The copy is left without the pool.** The two are equal until the first makes its pool, and
not any more then; rebound and back, the first is not equal to itself; and what is given back
through the copy is lost. -/
theorem copies_diverge :
    ∃ s : Allocators ℕ Bool, ∃ a b p s₁ a₁,
      (machine twoTypes (fun _ => 0)).run (new twoTypes (fun _ => 0)) copiedEarly = some s
        ∧ s.allocator 0 = some a ∧ s.allocator 1 = some b ∧ a.equal b = true
        ∧ allocate twoTypes s 0 a 1 = (some p, s₁)
        ∧ s₁.allocator 0 = some a₁ ∧ s₁.allocator 1 = some b
        ∧ a₁.equal b = false
        ∧ ((a₁.rebind true).rebind a₁.type).equal a₁ = false
        ∧ (allocate twoTypes (deallocate twoTypes s₁ b p 1) 0 a₁ 1).1 = some 6160 ∧ p = 6168 :=
  ⟨_, _, _, 6168, _, _, rfl, rfl, rfl, rfl, rfl, rfl, rfl, rfl, rfl, rfl, rfl⟩

end Allocators
