import Mathlib.Logic.Function.Basic
import SapCore.Arena
import SapCore.Machine
import SapCore.Memory

/-!
# Pools of blocks of one size

A `fixed_block_pool` takes memory of a `linear_arena` a chunk at a time, cuts the chunk
into blocks, and keeps the blocks that are not in use on a list that is threaded through
the blocks themselves: a free block begins with the address of the next.

Pointers are 64-bit words of a byte memory. What else the implementation of C++ decides is
a `Target`: the order in which words are kept, the strictest fundamental alignment, and
the size of a pool object. `bad_alloc` is `none`; what was done before the exception is
done. Beside the source's
data a pool has its history: how many chunks it has taken (the source counts them where
statistics are compiled in), the blocks it has cut, those that are handed out, and the
largest number of them that were at any time.
-/

/-- **What the implementation decides**: the byte order, `alignof(std::max_align_t)` and
`sizeof(fixed_block_pool)`. Alignments of pointers are fundamental, and a pool object has four
words, and a fifth where statistics are compiled in; the bounds leave room for more. -/
structure Target where
  host : ByteOrder
  maxAlign : UInt64
  poolSize : UInt64
  isPowerOfTwo : IsPowerOfTwo maxAlign
  le_maxAlign : 8 ≤ maxAlign.toNat
  maxAlign_le : maxAlign.toNat ≤ 64
  dvd_poolSize : 8 ∣ poolSize.toNat
  le_poolSize : 32 ≤ poolSize.toNat
  poolSize_le : poolSize.toNat ≤ 64

namespace Target

/-- GCC and Clang on 64-bit Linux, without statistics. -/
def linux : Target :=
  ⟨.little, 16, 32, ⟨4, rfl⟩, by decide, by decide, by decide, by decide, by decide⟩

/-- MSVC on 64-bit Windows, with statistics. -/
def windows : Target :=
  ⟨.little, 8, 40, ⟨3, rfl⟩, by decide, by decide, by decide, by decide, by decide⟩

end Target

/-- The arena, and the memory it hands out. -/
structure ArenaHeap where
  arena : LinearArena
  memory : Memory

/-- **`fixed_block_pool`**; the arena it refers to is passed to its functions. -/
structure FixedBlockPool where
  blkSize : UInt64
  perChunk : UInt64
  free : UInt64
  chunks : ℕ
  carved : List UInt64
  out : List UInt64
  peak : ℕ

namespace FixedBlockPool

/-- `sizeof(node)`, and the size of a pointer. -/
def nodeSize : UInt64 := 8

/-- A new pool. -/
def new (blockSize blocksPerChunk : UInt64) : FixedBlockPool :=
  ⟨if blockSize < nodeSize then nodeSize else blockSize, blocksPerChunk, 0, 0, [], [], 0⟩

/-- Read `next` of a node. -/
def next (host : ByteOrder) (m : Memory) (p : UInt64) : UInt64 :=
  UInt64.ofNat (m.load host 8 p.toNat)

/-- Write `next` of a node. -/
def setNext (host : ByteOrder) (m : Memory) (p target : UInt64) : Memory :=
  m.store host 8 p.toNat target.toNat

/-- A block of a chunk. -/
def blockAt (raw blkSize : UInt64) (i : ℕ) : UInt64 := raw + UInt64.ofNat i * blkSize

/-- **The loop of `add_chunk`**, after so many rounds: the memory, and `free_`. -/
def threadChunk (host : ByteOrder) (raw blkSize : UInt64) (m : Memory) (free : UInt64) :
    ℕ → Memory × UInt64
  | 0 => (m, free)
  | i + 1 =>
    let s := threadChunk host raw blkSize m free i
    (setNext host s.1 (blockAt raw blkSize i) s.2, blockAt raw blkSize i)

/-- The blocks of a chunk, in order. -/
def chunkBlocks (raw blkSize : UInt64) (n : ℕ) : List UInt64 :=
  (List.range n).map (blockAt raw blkSize)

/-- The end of `add_chunk`: a chunk is cut into blocks. -/
def cut (host : ByteOrder) (pool : FixedBlockPool) (m : Memory) (raw : UInt64) :
    Memory × FixedBlockPool :=
  let s := threadChunk host raw pool.blkSize m pool.free pool.perChunk.toNat
  (s.1,
    { pool with
      free := s.2
      chunks := pool.chunks + 1
      carved := pool.carved ++ chunkBlocks raw pool.blkSize pool.perChunk.toNat })

/-- `add_chunk`: whether it returns, and what it leaves. -/
def addChunk (target : Target) (h : ArenaHeap) (pool : FixedBlockPool) :
    Bool × ArenaHeap × FixedBlockPool :=
  let r := h.arena.allocate (pool.blkSize * pool.perChunk) target.maxAlign
  if r.1 = 0 then (false, { h with arena := r.2 }, pool)
  else
    let s := pool.cut target.host h.memory r.1
    (true, ⟨r.2, s.1⟩, s.2)

/-- The end of `allocate`: the first block is taken off the list. -/
def pop (host : ByteOrder) (h : ArenaHeap) (pool : FixedBlockPool) :
    Option UInt64 × ArenaHeap × FixedBlockPool :=
  (some pool.free, h,
    { pool with
      free := next host h.memory pool.free
      out := pool.free :: pool.out
      peak := max pool.peak (pool.out.length + 1) })

/-- **`allocate`.** -/
def allocate (target : Target) (h : ArenaHeap) (pool : FixedBlockPool) :
    Option UInt64 × ArenaHeap × FixedBlockPool :=
  if pool.free = 0 then
    let r := addChunk target h pool
    if r.1 then pop target.host r.2.1 r.2.2 else (none, r.2.1, r.2.2)
  else pop target.host h pool

/-- **`deallocate`.** -/
def deallocate (host : ByteOrder) (h : ArenaHeap) (pool : FixedBlockPool) (p : UInt64) :
    ArenaHeap × FixedBlockPool :=
  if p = 0 then (h, pool)
  else
    ({ h with memory := setNext host h.memory p pool.free },
      { pool with free := p, out := pool.out.erase p })

end FixedBlockPool

/-! ## Pools that share an arena -/

/-- What the pools are made with, the target, and the buffer of the arena. -/
structure PoolSetup (ι : Type) extends Target where
  blockSize : ι → UInt64
  blocksPerChunk : ι → UInt64
  mem : UInt64
  size : UInt64

/-- **Pools over one arena**, and the direct allocations. -/
structure Pools (ι : Type) where
  heap : ArenaHeap
  pool : ι → FixedBlockPool
  direct : List ArenaBlock

namespace Pools

variable {ι : Type} (setup : PoolSetup ι)

/-- A call, or a byte that a client writes. -/
inductive Label (ι : Type) where
  | allocate (i : ι)
  | deallocate (i : ι) (p : UInt64)
  /-- `allocate` of the arena. -/
  | direct (bytes align : UInt64)
  | write (x : ℕ) (byte : UInt8)

/-- New pools, over an arena whose memory is as it may be. -/
def new (m : Memory) : Pools ι where
  heap := ⟨.new setup.mem setup.size, m⟩
  pool i := .new (setup.blockSize i) (setup.blocksPerChunk i)
  direct := []

variable [DecidableEq ι]

/-- Write back what a call of a pool left. -/
def setPool (s : Pools ι) (i : ι) (r : ArenaHeap × FixedBlockPool) : Pools ι :=
  { s with heap := r.1, pool := Function.update s.pool i r.2 }

/-- A call of `allocate` of the arena. -/
def allocateDirect (s : Pools ι) (bytes align : UInt64) : Pools ι :=
  let r := s.heap.arena.allocate bytes align
  { s with
    heap := { s.heap with arena := r.2 }
    direct := if r.1 = 0 then s.direct else ⟨r.1, bytes⟩ :: s.direct }

/-- A client writes a byte. -/
def write (s : Pools ι) (x : ℕ) (byte : UInt8) : Pools ι :=
  { s with heap := { s.heap with memory := s.heap.memory.write x [byte] } }

/-- **One step.** -/
def step (s : Pools ι) : Label ι → Option (Pools ι)
  | .allocate i => some (s.setPool i ((s.pool i).allocate setup.toTarget s.heap).2)
  | .deallocate i p => some (s.setPool i ((s.pool i).deallocate setup.host s.heap p))
  | .direct bytes align => some (s.allocateDirect bytes align)
  | .write x byte => some (s.write x byte)

/-- **Pools that share an arena, as a machine.** -/
def machine (m : Memory) : Machine (Pools ι) (Label ι) := ⟨new setup m, step setup⟩

end Pools
