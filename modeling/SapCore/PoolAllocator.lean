import SapCore.FixedBlockPoolRuns

/-!
# Allocators over pools

A `pool_allocator` refers to an arena and, once it has been asked for a single element,
to a pool of blocks of the size of its element type; it makes the pool in the arena then.
Copies and assignments take the reference to the pool over. The converting constructor,
by which an allocator is rebound to another element type, does not, since the blocks of
the pool have the wrong size; and an allocator that has no pool yet leaves its copies
without one when it makes one.

The machine has any number of allocator objects over one arena. The pools are objects in
the arena, and are known by their addresses.
-/

/-- **`pool_allocator`**: the element type, and the pool or the null pointer. -/
structure PoolAllocator (θ : Type) where
  type : θ
  pool : UInt64
  deriving DecidableEq

namespace PoolAllocator

variable {θ : Type}

/-- The constructor with an arena. -/
def new (t : θ) : PoolAllocator θ := ⟨t, 0⟩

/-- The converting constructor. -/
def rebind (_ : PoolAllocator θ) (t : θ) : PoolAllocator θ := ⟨t, 0⟩

/-- `operator==`, for allocators of one element type and one arena. -/
def equal (a b : PoolAllocator θ) : Bool := a.pool == b.pool

end PoolAllocator

/-- The target, the element types with their `sizeof` and `alignof`, and the buffer of the
arena. -/
structure AllocatorSetup (θ : Type) extends Target where
  sizeOf : θ → UInt64
  alignOf : θ → UInt64
  mem : UInt64
  size : UInt64

/-- Alignments are powers of two, and the buffer is not at the null address unless it is
empty. -/
structure AllocatorSetup.Proper {θ : Type} (setup : AllocatorSetup θ) : Prop where
  alignOf : ∀ t, IsPowerOfTwo (setup.alignOf t)
  nonnull : setup.mem = 0 → setup.size = 0

/-- **Allocators over one arena**, and the pools in it. -/
structure Allocators (ν θ : Type) where
  heap : ArenaHeap
  pools : UInt64 → Option FixedBlockPool
  allocator : ν → Option (PoolAllocator θ)

namespace Allocators

variable {ν θ : Type} (setup : AllocatorSetup θ)

/-- `alignof(fixed_block_pool)`. -/
def poolAlign : UInt64 := 8

/-- The default of `blocks_per_chunk`. -/
def blocksPerChunk : UInt64 := 256

/-- No allocators yet. -/
def new (m : Memory) : Allocators ν θ :=
  ⟨⟨.new setup.mem setup.size, m⟩, fun _ => none, fun _ => none⟩

/-- The pool at an address is written. -/
def setPool (s : Allocators ν θ) (q : UInt64) (r : ArenaHeap × FixedBlockPool) :
    Allocators ν θ :=
  { s with heap := r.1, pools := Function.update s.pools q (some r.2) }

/-- The memory of the arena that is left by a call of its `allocate`. -/
def setArena (s : Allocators ν θ) (arena : LinearArena) : Allocators ν θ :=
  { s with heap := { s.heap with arena := arena } }

variable [DecidableEq ν]

/-- Write to an allocator object. -/
def set (s : Allocators ν θ) (x : ν) (a : Option (PoolAllocator θ)) : Allocators ν θ :=
  { s with allocator := Function.update s.allocator x a }

/-- **`ensure_pool`** of the allocator `x`: the pool, or none if `bad_alloc` is thrown. -/
def ensurePool (s : Allocators ν θ) (x : ν) (a : PoolAllocator θ) :
    Option UInt64 × Allocators ν θ :=
  if a.pool ≠ 0 then (some a.pool, s)
  else
    let r := s.heap.arena.allocate setup.poolSize poolAlign
    if r.1 = 0 then (none, s.setArena r.2)
    else
      (some r.1, ((s.setArena r.2).setPool r.1
        ((s.setArena r.2).heap, .new (setup.sizeOf a.type) blocksPerChunk)).set x
          (some { a with pool := r.1 }))

/-- `allocate` of the pool at an address. -/
def allocateFrom (s : Allocators ν θ) (q : UInt64) : Option UInt64 × Allocators ν θ :=
  match s.pools q with
  | some pool =>
    let r := pool.allocate setup.toTarget s.heap
    (r.1, s.setPool q r.2)
  | none => (none, s)

/-- **`allocate`** of the allocator `x`: the address, or none if `bad_alloc` is thrown. -/
def allocate (s : Allocators ν θ) (x : ν) (a : PoolAllocator θ) (n : UInt64) :
    Option UInt64 × Allocators ν θ :=
  if n = 1 then
    match ensurePool setup s x a with
    | (some q, s') => allocateFrom setup s' q
    | (none, s') => (none, s')
  else
    let r := s.heap.arena.allocate (n * setup.sizeOf a.type) (setup.alignOf a.type)
    (if r.1 = 0 then none else some r.1, s.setArena r.2)

/-- **`deallocate`** of an allocator. -/
def deallocate (s : Allocators ν θ) (a : PoolAllocator θ) (p n : UInt64) : Allocators ν θ :=
  if p = 0 ∨ n = 0 then s
  else if n = 1 ∧ a.pool ≠ 0 then
    match s.pools a.pool with
    | some pool => s.setPool a.pool (pool.deallocate setup.host s.heap p)
    | none => s
  else s

/-- What is done to the allocators. -/
inductive Label (ν θ : Type) where
  | construct (x : ν) (t : θ)
  | copy (x y : ν)
  | assign (x y : ν)
  /-- `x` is made from `y` by the converting constructor. -/
  | rebind (x y : ν) (t : θ)
  | destroy (x : ν)
  | allocate (x : ν) (n : UInt64)
  | deallocate (x : ν) (p n : UInt64)

variable [DecidableEq θ]

/-- **One step.** Objects are made where there are none, and used where there are some; the
converting constructor is for another element type, and assignments are for one. -/
def step (s : Allocators ν θ) : Label ν θ → Option (Allocators ν θ)
  | .construct x t => if s.allocator x = none then some (s.set x (some (.new t))) else none
  | .copy x y =>
    match s.allocator y with
    | some b => if s.allocator x = none then some (s.set x (some b)) else none
    | none => none
  | .assign x y =>
    match s.allocator x, s.allocator y with
    | some a, some b => if a.type = b.type then some (s.set x (some b)) else none
    | _, _ => none
  | .rebind x y t =>
    match s.allocator y with
    | some b =>
      if s.allocator x = none ∧ b.type ≠ t then some (s.set x (some (b.rebind t))) else none
    | none => none
  | .destroy x => if s.allocator x ≠ none then some (s.set x none) else none
  | .allocate x n => (s.allocator x).map (fun a => (allocate setup s x a n).2)
  | .deallocate x p n => (s.allocator x).map (fun a => deallocate setup s a p n)

/-- **What a step does**: an allocator object is written, where there is none or by an assignment or
the destructor, and if it has a pool then, it is a copy of another; or a call is made. -/
inductive Effect (s : Allocators ν θ) : Label ν θ → Allocators ν θ → Prop where
  | set {label : Label ν θ} {x : ν} {a : Option (PoolAllocator θ)}
    (hx : s.allocator x = none ∨ (∃ y, label = .assign x y) ∨ label = .destroy x)
    (ha : ∀ b, a = some b → b.pool ≠ 0 → ∃ y, s.allocator y = some b)
    (hlabel : ∀ y n, label ≠ .allocate y n) : Effect s label (s.set x a)
  | allocate {x : ν} {n : UInt64} {a : PoolAllocator θ} (ha : s.allocator x = some a) :
    Effect s (.allocate x n) (allocate setup s x a n).2
  | deallocate {x : ν} {p n : UInt64} {a : PoolAllocator θ} (ha : s.allocator x = some a) :
    Effect s (.deallocate x p n) (deallocate setup s a p n)

variable {setup} in
theorem effect_of_step {s s' : Allocators ν θ} {label : Label ν θ}
    (hstep : step setup s label = some s') : Effect setup s label s' := by
  cases label with
  | construct x t =>
    obtain ⟨hnone, ⟨⟩⟩ := Option.ite_none_right_eq_some.mp hstep
    refine .set (Or.inl hnone) (fun b hb hpool => ?_) nofun
    cases hb
    exact absurd rfl hpool
  | copy x y =>
    simp only [step] at hstep
    cases hy : s.allocator y with
    | none =>
      rw [hy] at hstep
      cases hstep
    | some b =>
      simp only [hy] at hstep
      obtain ⟨hnone, ⟨⟩⟩ := Option.ite_none_right_eq_some.mp hstep
      refine .set (Or.inl hnone) (fun c hc _ => ⟨y, ?_⟩) nofun
      cases hc
      exact hy
  | assign x y =>
    simp only [step] at hstep
    cases hx : s.allocator x with
    | none =>
      rw [hx] at hstep
      cases hstep
    | some a =>
      cases hy : s.allocator y with
      | none =>
        rw [hx, hy] at hstep
        cases hstep
      | some b =>
        simp only [hx, hy] at hstep
        obtain ⟨-, ⟨⟩⟩ := Option.ite_none_right_eq_some.mp hstep
        refine .set (Or.inr (Or.inl ⟨y, rfl⟩)) (fun c hc _ => ⟨y, ?_⟩) nofun
        cases hc
        exact hy
  | rebind x y t =>
    simp only [step] at hstep
    cases hy : s.allocator y with
    | none =>
      rw [hy] at hstep
      cases hstep
    | some b =>
      simp only [hy] at hstep
      obtain ⟨⟨hnone, -⟩, ⟨⟩⟩ := Option.ite_none_right_eq_some.mp hstep
      refine .set (Or.inl hnone) (fun c hc hpool => ?_) nofun
      cases hc
      exact absurd rfl hpool
  | destroy x =>
    obtain ⟨-, ⟨⟩⟩ := Option.ite_none_right_eq_some.mp hstep
    exact .set (Or.inr (Or.inr rfl)) (fun b hb => by cases hb) nofun
  | allocate x n =>
    obtain ⟨a, ha, rfl⟩ := Option.map_eq_some_iff.mp hstep
    exact .allocate ha
  | deallocate x p n =>
    obtain ⟨a, ha, rfl⟩ := Option.map_eq_some_iff.mp hstep
    exact .deallocate ha

/-- **Allocators over one arena, as a machine.** -/
def machine (m : Memory) : Machine (Allocators ν θ) (Label ν θ) := ⟨new setup m, step setup⟩

end Allocators
