import Mathlib.Data.Set.Lattice
import Mathlib.Order.CompletePartialOrder
import SapCore.Arena
import SapCore.History

/-!
# When the arenas hand out disjoint memory

The two sums of `allocate` are made before the only test, and each may pass `2 ^ 64`.
If the rounded cursor does, it is the address zero, which the caller takes for a
refusal, while the cursor moves to the number of bytes asked for. If the sum does, the
test is passed by a request that does not fit, and the cursor moves backwards.

`Serves` is what a call owes, and `Correct` that all calls of a run pay it, with the
cursor inside the buffer throughout. `Exact` is the condition on a call under which they
do, and exactly: `Correct.iff_exact`.
-/

open Alignment

/-- A call. -/
inductive ArenaOp where
  | allocate (bytes align : UInt64)
  | reset
  deriving DecidableEq, Repr

/-- The alignment asked for is one. -/
def ArenaOp.Aligned : ArenaOp → Prop
  | .allocate _ align => IsPowerOfTwo align
  | .reset => True

/-- **What the two arenas have in common**: their functions, and how they are seen as a
cursor in a buffer. -/
structure BumpArena (A : Type) where
  allocate : A → UInt64 → UInt64 → UInt64 × A
  reset : A → A
  linear : A → LinearArena

namespace BumpArena

/-- `linear_arena`. -/
def linearArena : BumpArena LinearArena := ⟨LinearArena.allocate, LinearArena.reset, id⟩

/-- `stack_arena`. -/
def stackArena (N : UInt64) : BumpArena (StackArena N) :=
  ⟨StackArena.allocate, StackArena.reset, StackArena.linear⟩

variable {A : Type} (B : BumpArena A)

/-- An arena, and the blocks returned since the last `reset`. -/
structure Run (A : Type) where
  arena : A
  blocks : List ArenaBlock

/-- What a call of `allocate` does. -/
def allocated (s : Run A) (bytes align : UInt64) : Run A :=
  let r := B.allocate s.arena bytes align
  ⟨r.2, if r.1 = 0 then s.blocks else ⟨r.1, bytes⟩ :: s.blocks⟩

/-- One call. -/
def step (s : Run A) : ArenaOp → Run A
  | .allocate bytes align => B.allocated s bytes align
  | .reset => ⟨B.reset s.arena, []⟩

/-- **A run of calls**, on a new arena. -/
def after (a : A) (ops : List ArenaOp) : Run A := ops.foldl B.step ⟨a, []⟩

@[simp] theorem after_nil (a : A) : B.after a [] = ⟨a, []⟩ := rfl

@[simp] theorem after_concat (a : A) (ops : List ArenaOp) (op : ArenaOp) :
    B.after a (ops ++ [op]) = B.step (B.after a ops) op := by
  unfold after
  rw [List.foldl_append]
  rfl

/-! ## What is owed -/

/-- **What a call of `allocate` owes**, over a buffer from `first` to `last`: it returns an
address exactly when the rounded cursor and the size fit the buffer; the block is then
aligned, inside the buffer, and disjoint from those returned before it; and a call that
returns nothing leaves the arena as it was. -/
structure Serves (first last : ℕ) (s : Run A) (bytes align : UInt64) : Prop where
  returns : (B.allocate s.arena bytes align).1 ≠ 0
    ↔ roundUp (B.linear s.arena).cur.toNat align.toNat + bytes.toNat ≤ last
  aligned : (B.allocate s.arena bytes align).1 ≠ 0 →
    align.toNat ∣ (B.allocate s.arena bytes align).1.toNat
  inside : (B.allocate s.arena bytes align).1 ≠ 0 →
    first ≤ (B.allocate s.arena bytes align).1.toNat
      ∧ (B.allocate s.arena bytes align).1.toNat + bytes.toNat ≤ last
  disjoint : (B.allocate s.arena bytes align).1 ≠ 0 → ∀ b ∈ s.blocks,
    Disjoint b.range (ArenaBlock.range ⟨(B.allocate s.arena bytes align).1, bytes⟩)
  unchanged : (B.allocate s.arena bytes align).1 = 0 →
    (B.allocate s.arena bytes align).2 = s.arena

/-- **The arena is correct in a run**: the cursor is inside the buffer throughout, and
every call pays what it owes. -/
def Correct (a : A) (first last : ℕ) (ops : List ArenaOp) : Prop :=
  (∀ before, before <+: ops →
    (B.linear (B.after a before).arena).begin_ ≤ (B.linear (B.after a before).arena).cur
      ∧ (B.linear (B.after a before).arena).cur ≤ (B.linear (B.after a before).arena).end_)
    ∧ History.Each (fun before op => ∀ bytes align, op = .allocate bytes align →
      B.Serves first last (B.after a before) bytes align) ops

/-- **The condition on a call**: the sum does not pass `2 ^ 64`; or what is left of it is
past the end of the buffer, so that the call is refused all the same; or the rounded
cursor alone makes `2 ^ 64`, and as many bytes are asked for as the cursor is already
at. -/
def Exact (last : ℕ) (cur bytes align : UInt64) : Prop :=
  roundUp cur.toNat align.toNat + bytes.toNat < 2 ^ 64
    ∨ last < (roundUp cur.toNat align.toNat + bytes.toNat) % 2 ^ 64
    ∨ (roundUp cur.toNat align.toNat = 2 ^ 64 ∧ bytes = cur)

/-- All calls of a run meet it. -/
def AllExact (a : A) (last : ℕ) (ops : List ArenaOp) : Prop :=
  History.Each (fun before op => ∀ bytes align, op = .allocate bytes align →
    Exact last (B.linear (B.after a before).arena).cur bytes align) ops

/-! ## One call -/

variable {last : ℕ} {cur end_ bytes align : UInt64}

/-- **A call that meets the condition** fits and returns the rounded cursor, or does not fit
and returns nothing. -/
theorem Exact.bump_cases (h : Exact last cur bytes align) (halign : IsPowerOfTwo align)
    (hlast : end_.toNat = last) :
    (roundUp cur.toNat align.toNat + bytes.toNat ≤ last
        ∧ (bump cur end_ bytes align).1.toNat = roundUp cur.toNat align.toNat
        ∧ (bump cur end_ bytes align).2.toNat = roundUp cur.toNat align.toNat + bytes.toNat)
      ∨ (last < roundUp cur.toNat align.toNat + bytes.toNat
        ∧ bump cur end_ bytes align = (0, cur)) := by
  subst hlast
  obtain hlt | hpast | ⟨hround, rfl⟩ := h
  · exact bump_of_lt halign hlt
  · have hle := Nat.mod_le (roundUp cur.toNat align.toNat + bytes.toNat) (2 ^ 64)
    rw [← toNat_alignUp_add halign] at hpast hle
    refine Or.inr ⟨Nat.lt_of_lt_of_le hpast hle, ?_⟩
    unfold bump
    exact if_pos (UInt64.lt_iff_toNat_lt.mpr hpast)
  · -- the rounded cursor is the address zero, and the sum is the cursor itself
    refine Or.inr ⟨?_, ?_⟩
    · rw [hround]
      exact Nat.lt_of_lt_of_le end_.toNat_lt (Nat.le_add_right _ _)
    · unfold bump
      dsimp only
      rw [alignUp_eq_zero halign hround, UInt64.zero_add]
      exact ite_self _

/-- **A call that does not meet it** returns the rounded cursor although the block does not
fit, or returns nothing and moves the cursor. -/
theorem bump_of_not_exact (h : ¬ Exact last cur bytes align) (halign : IsPowerOfTwo align)
    (hlast : end_.toNat = last) :
    last < roundUp cur.toNat align.toNat + bytes.toNat
      ∧ ((bump cur end_ bytes align).1.toNat = roundUp cur.toNat align.toNat
        ∨ ((bump cur end_ bytes align).1 = 0 ∧ (bump cur end_ bytes align).2 ≠ cur)) := by
  subst hlast
  obtain ⟨hwrap, hpast, hcur⟩ : ¬ _ ∧ ¬ _ ∧ ¬ _ := by simpa only [Exact, not_or] using h
  rw [Nat.not_lt] at hwrap
  refine ⟨Nat.lt_of_lt_of_le end_.toNat_lt hwrap, ?_⟩
  rw [← toNat_alignUp_add halign, ← UInt64.lt_iff_toNat_lt] at hpast
  have hbump : bump cur end_ bytes align
      = (alignUp cur align, alignUp cur align + bytes) := if_neg hpast
  rw [hbump]
  obtain hlt | hround := Nat.lt_or_eq_of_le (roundUp_le_two_pow halign cur)
  · exact Or.inl (toNat_alignUp_of_lt halign hlt)
  · rw [alignUp_eq_zero halign hround, UInt64.zero_add]
    exact Or.inr ⟨rfl, fun heq => hcur ⟨hround, heq⟩⟩

/-- **A request that meets the condition** is met, at a non-null address before which everything
lies that was taken earlier, or is refused and leaves the arena as it was. -/
theorem Exact.allocate_cases {a : LinearArena} (hexact : Exact a.end_.toNat a.cur bytes align)
    (halign : IsPowerOfTwo align) (hnull : a.cur = 0 → a.end_ = 0) :
    ((a.allocate bytes align).1 ≠ 0
        ∧ a.cur.toNat ≤ (a.allocate bytes align).1.toNat
        ∧ (a.allocate bytes align).2.cur.toNat = (a.allocate bytes align).1.toNat + bytes.toNat
        ∧ (a.allocate bytes align).1.toNat + bytes.toNat ≤ a.end_.toNat)
      ∨ ((a.allocate bytes align).1 = 0 ∧ (a.allocate bytes align).2 = a) := by
  have hround := le_roundUp (x := a.cur.toNat) halign.pos
  obtain ⟨hfits, haddr, hcur⟩ | ⟨-, hbump⟩ := hexact.bump_cases halign rfl
  · have haddr' : (a.allocate bytes align).1.toNat = roundUp a.cur.toNat align.toNat := haddr
    have hcur' : (a.allocate bytes align).2.cur.toNat
        = roundUp a.cur.toNat align.toNat + bytes.toNat := hcur
    by_cases hzero : (a.allocate bytes align).1 = 0
    · -- only an arena without a buffer returns the null pointer for a request that fits
      have hzero' : (a.allocate bytes align).1.toNat = 0 := by rw [hzero]; rfl
      have hcurzero : a.cur = 0 := by
        rw [← UInt64.toNat_inj]
        exact Nat.le_zero.mp (by omega)
      have hend : a.end_.toNat = 0 := by rw [hnull hcurzero]; rfl
      have hsame : (a.allocate bytes align).2.cur = a.cur := by
        rw [← UInt64.toNat_inj, hcur', hcurzero]
        exact Nat.le_zero.mp (by rw [hcurzero] at hfits; omega)
      exact Or.inr ⟨hzero, congrArg (fun cur => { a with cur := cur }) hsame⟩
    · rw [haddr', hcur']
      exact Or.inl ⟨hzero, hround, rfl, hfits⟩
  · refine Or.inr ⟨?_, ?_⟩
    · unfold LinearArena.allocate
      rw [hbump]
    · unfold LinearArena.allocate
      rw [hbump]

/-! ## Runs -/

/-- **The functions are those of a cursor in a buffer.** -/
structure Lawful : Prop where
  allocate : ∀ a bytes align,
    ((B.allocate a bytes align).1, B.linear (B.allocate a bytes align).2)
      = (B.linear a).allocate bytes align
  reset : ∀ a, B.linear (B.reset a) = (B.linear a).reset
  ext : ∀ a a', B.linear a = B.linear a' → a = a'

theorem lawful_linearArena : linearArena.Lawful := ⟨fun _ _ _ => rfl, fun _ => rfl, fun _ _ => id⟩

theorem lawful_stackArena (N : UInt64) : (stackArena N).Lawful where
  allocate := StackArena.linear_allocate
  reset _ := rfl
  ext a a' heq := by
    cases a
    cases a'
    cases heq
    rfl

/-- **What runs keep**: the buffer is the same, the cursor is in it, and the blocks are
before the cursor. -/
structure Inv (mem size : UInt64) (s : Run A) : Prop where
  begin_ : (B.linear s.arena).begin_ = mem
  end_ : (B.linear s.arena).end_.toNat = mem.toNat + size.toNat
  le_cur : mem.toNat ≤ (B.linear s.arena).cur.toNat
  cur_le : (B.linear s.arena).cur.toNat ≤ mem.toNat + size.toNat
  before : ∀ b ∈ s.blocks, b.addr.toNat + b.bytes.toNat ≤ (B.linear s.arena).cur.toNat

variable {B} {mem size : UInt64} {a : A} {s : Run A} {ops : List ArenaOp}

theorem inv_new (ha : B.linear a = .new mem size) (hfit : mem.toNat + size.toNat < 2 ^ 64) :
    B.Inv mem size ⟨a, []⟩ where
  begin_ := by rw [ha]; rfl
  end_ := by
    rw [ha]
    exact (UInt64.toNat_add _ _).trans (Nat.mod_eq_of_lt hfit)
  le_cur := by rw [ha]; exact Nat.le_refl _
  cur_le := by rw [ha]; exact Nat.le_add_right _ _
  before b hb := absurd hb List.not_mem_nil

theorem Inv.reset (hi : B.Inv mem size s) (hB : B.Lawful) :
    B.Inv mem size ⟨B.reset s.arena, []⟩ where
  begin_ := by rw [hB.reset]; exact hi.begin_
  end_ := by rw [hB.reset]; exact hi.end_
  le_cur := by
    rw [hB.reset]
    exact Nat.le_of_eq (congrArg UInt64.toNat hi.begin_.symm)
  cur_le := by
    rw [hB.reset]
    exact Nat.le_trans (Nat.le_of_eq (congrArg UInt64.toNat hi.begin_)) (Nat.le_add_right _ _)
  before b hb := absurd hb List.not_mem_nil

/-- A call, as `bump` does it. -/
theorem Lawful.allocate_eq (hB : B.Lawful) (a : A) (bytes align : UInt64) :
    (B.allocate a bytes align).1 = (bump (B.linear a).cur (B.linear a).end_ bytes align).1
      ∧ B.linear (B.allocate a bytes align).2
        = { B.linear a with cur := (bump (B.linear a).cur (B.linear a).end_ bytes align).2 } :=
  Prod.ext_iff.mp (hB.allocate a bytes align)

/-- A block that begins at the rounded cursor is not null, the cursor being in the buffer. -/
theorem ptr_ne_zero (hmem : mem ≠ 0) (halign : IsPowerOfTwo align)
    (hcur : mem.toNat ≤ (B.linear s.arena).cur.toNat)
    (haddr : (B.allocate s.arena bytes align).1.toNat
      = roundUp (B.linear s.arena).cur.toNat align.toNat) :
    (B.allocate s.arena bytes align).1 ≠ 0 := by
  intro heq
  have hround := le_roundUp (x := (B.linear s.arena).cur.toNat) halign.pos
  have hpos : mem.toNat ≠ 0 := fun h => hmem (UInt64.toNat_inj.mp h)
  have hzero : (0 : UInt64).toNat = 0 := rfl
  rw [heq] at haddr
  omega

/-- A block is returned, and the cursor is behind it. -/
theorem Inv.granted (hi : B.Inv mem size s) (hB : B.Lawful) (halign : IsPowerOfTwo align)
    (hne : (B.allocate s.arena bytes align).1 ≠ 0)
    (haddr : (B.allocate s.arena bytes align).1.toNat
      = roundUp (B.linear s.arena).cur.toNat align.toNat)
    (hcur : (B.linear (B.allocate s.arena bytes align).2).cur.toNat
      = roundUp (B.linear s.arena).cur.toNat align.toNat + bytes.toNat)
    (hfits : roundUp (B.linear s.arena).cur.toNat align.toNat + bytes.toNat
      ≤ mem.toNat + size.toNat) :
    B.Inv mem size (B.allocated s bytes align) := by
  have hlinear := (hB.allocate_eq s.arena bytes align).2
  have hround := le_roundUp (x := (B.linear s.arena).cur.toNat) halign.pos
  refine ⟨?_, ?_, ?_, ?_, ?_⟩
  · show (B.linear (B.allocate s.arena bytes align).2).begin_ = mem
    rw [hlinear]
    exact hi.begin_
  · show (B.linear (B.allocate s.arena bytes align).2).end_.toNat = _
    rw [hlinear]
    exact hi.end_
  · show _ ≤ (B.linear (B.allocate s.arena bytes align).2).cur.toNat
    rw [hcur]
    exact Nat.le_trans (Nat.le_trans hi.le_cur hround) (Nat.le_add_right _ _)
  · show (B.linear (B.allocate s.arena bytes align).2).cur.toNat ≤ _
    rw [hcur]
    exact hfits
  · intro b hb
    show _ ≤ (B.linear (B.allocate s.arena bytes align).2).cur.toNat
    rw [hcur]
    have hb' : b ∈ (⟨(B.allocate s.arena bytes align).1, bytes⟩ : ArenaBlock) :: s.blocks := by
      simpa [allocated, hne] using hb
    obtain rfl | hold := List.mem_cons.mp hb'
    · exact Nat.le_of_eq (by rw [haddr])
    · have hle := hi.before b hold
      omega

/-- The block is aligned, in the buffer, and behind the others. -/
theorem Inv.serves (hi : B.Inv mem size s) (halign : IsPowerOfTwo align)
    (hne : (B.allocate s.arena bytes align).1 ≠ 0)
    (haddr : (B.allocate s.arena bytes align).1.toNat
      = roundUp (B.linear s.arena).cur.toNat align.toNat)
    (hfits : roundUp (B.linear s.arena).cur.toNat align.toNat + bytes.toNat
      ≤ mem.toNat + size.toNat) :
    B.Serves mem.toNat (mem.toNat + size.toNat) s bytes align := by
  have hround := le_roundUp (x := (B.linear s.arena).cur.toNat) halign.pos
  refine ⟨⟨fun _ => hfits, fun _ => hne⟩, fun _ => ?_, fun _ => ⟨?_, ?_⟩, fun _ b hb => ?_,
    fun heq => absurd heq hne⟩
  · rw [haddr]
    exact dvd_roundUp _ _
  · rw [haddr]
    exact Nat.le_trans hi.le_cur hround
  · rw [haddr]
    exact hfits
  · -- the block begins where the cursor was, or after it
    rw [Set.disjoint_left]
    rintro x hx hx'
    have hle := hi.before b hb
    have hlt : x < b.addr.toNat + b.bytes.toNat := hx.2
    have hge : (B.allocate s.arena bytes align).1.toNat ≤ x := hx'.1
    omega

/-- **A call that meets the condition keeps the invariant, and pays what it owes.** -/
theorem Inv.allocate (hi : B.Inv mem size s) (hB : B.Lawful) (hmem : mem ≠ 0)
    (halign : IsPowerOfTwo align)
    (hexact : Exact (mem.toNat + size.toNat) (B.linear s.arena).cur bytes align) :
    B.Inv mem size (B.allocated s bytes align)
      ∧ B.Serves mem.toNat (mem.toNat + size.toNat) s bytes align := by
  obtain ⟨hptr, hlinear⟩ := hB.allocate_eq s.arena bytes align
  obtain ⟨hfits, haddr, hcur⟩ | ⟨hpast, hbump⟩ := hexact.bump_cases halign hi.end_
  · rw [← hptr] at haddr
    have hne := ptr_ne_zero hmem halign hi.le_cur haddr
    refine ⟨hi.granted hB halign hne haddr ?_ hfits, hi.serves halign hne haddr hfits⟩
    rw [hlinear]
    exact hcur
  · have hzero : (B.allocate s.arena bytes align).1 = 0 := by rw [hptr, hbump]
    have hsame : (B.allocate s.arena bytes align).2 = s.arena := hB.ext _ _ (by rw [hlinear, hbump])
    have hallocated : B.allocated s bytes align = s := by simp [allocated, hzero, hsame]
    rw [hallocated]
    refine ⟨hi, ⟨fun hne => absurd hzero hne, fun hle => absurd hle (Nat.not_le.mpr hpast)⟩,
      fun hne => absurd hzero hne, fun hne => absurd hzero hne, fun hne => absurd hzero hne,
      fun _ => hsame⟩

/-- The buffer is the same throughout. -/
theorem buffer_after (hB : B.Lawful) (ha : B.linear a = .new mem size) (ops : List ArenaOp) :
    (B.linear (B.after a ops).arena).begin_ = mem
      ∧ (B.linear (B.after a ops).arena).end_ = mem + size := by
  induction ops using List.reverseRecOn with
  | nil =>
    rw [after_nil, ha]
    exact ⟨rfl, rfl⟩
  | append_singleton ops op ih =>
    rw [after_concat]
    cases op with
    | allocate bytes align =>
      show (B.linear (B.allocate (B.after a ops).arena bytes align).2).begin_ = mem
        ∧ (B.linear (B.allocate (B.after a ops).arena bytes align).2).end_ = mem + size
      rw [(hB.allocate_eq _ bytes align).2]
      exact ih
    | reset =>
      show (B.linear (B.reset (B.after a ops).arena)).begin_ = mem
        ∧ (B.linear (B.reset (B.after a ops).arena)).end_ = mem + size
      rw [hB.reset]
      exact ih

/-- **A run whose calls all meet the condition keeps the invariant.** -/
theorem inv_after (hB : B.Lawful) (ha : B.linear a = .new mem size) (hmem : mem ≠ 0)
    (hfit : mem.toNat + size.toNat < 2 ^ 64) :
    (∀ op ∈ ops, op.Aligned) → B.AllExact a (mem.toNat + size.toNat) ops →
      B.Inv mem size (B.after a ops) := by
  induction ops using List.reverseRecOn with
  | nil => exact fun _ _ => inv_new ha hfit
  | append_singleton ops op ih =>
    intro halign hexact
    obtain ⟨hbefore, hlast⟩ := (History.each_concat ops op).mp hexact
    have hi := ih (fun op hop => halign op (List.mem_append_left _ hop)) hbefore
    have hop := halign op (List.mem_append_right _ (List.mem_singleton_self op))
    rw [after_concat]
    cases op with
    | allocate bytes align => exact (hi.allocate hB hmem hop (hlast bytes align rfl)).1
    | reset => exact hi.reset hB

/-- **A call that pays what it owes met the condition**, the cursor being in the buffer. -/
theorem Serves.exact (hserves : B.Serves mem.toNat (mem.toNat + size.toNat) s bytes align)
    (hB : B.Lawful) (hmem : mem ≠ 0) (halign : IsPowerOfTwo align)
    (hend : (B.linear s.arena).end_.toNat = mem.toNat + size.toNat)
    (hcur : mem.toNat ≤ (B.linear s.arena).cur.toNat) :
    Exact (mem.toNat + size.toNat) (B.linear s.arena).cur bytes align := by
  by_contra hnot
  obtain ⟨hptr, hlinear⟩ := hB.allocate_eq s.arena bytes align
  obtain ⟨hpast, haddr | ⟨hzero, hmoved⟩⟩ := bump_of_not_exact hnot halign hend
  · rw [← hptr] at haddr
    exact Nat.not_le.mpr hpast (hserves.returns.mp (ptr_ne_zero hmem halign hcur haddr))
  · have hsame := hserves.unchanged (hptr.trans hzero)
    rw [hsame] at hlinear
    exact hmoved (congrArg LinearArena.cur hlinear).symm

/-- **When an arena is correct in a run.** -/
theorem Lawful.correct_iff (hB : B.Lawful) (ha : B.linear a = .new mem size) (hmem : mem ≠ 0)
    (halign : ∀ op ∈ ops, op.Aligned) :
    B.Correct a mem.toNat (mem.toNat + size.toNat) ops
      ↔ mem.toNat + size.toNat < 2 ^ 64 ∧ B.AllExact a (mem.toNat + size.toNat) ops := by
  have hmemlt := mem.toNat_lt
  have hsizelt := size.toNat_lt
  constructor
  · rintro ⟨hcursor, hserves⟩
    have hfit : mem.toNat + size.toNat < 2 ^ 64 := by
      obtain ⟨-, hle⟩ := hcursor [] List.nil_prefix
      rw [after_nil, ha, UInt64.le_iff_toNat_le] at hle
      have hend : (LinearArena.new mem size).end_.toNat = (mem.toNat + size.toNat) % 2 ^ 64 :=
        UInt64.toNat_add _ _
      have hcur : (LinearArena.new mem size).cur = mem := rfl
      rw [hend, hcur] at hle
      omega
    refine ⟨hfit, fun before op later heq bytes align hop => ?_⟩
    obtain ⟨hbegin, hend⟩ := buffer_after hB ha before
    have hle := (hcursor before ⟨op :: later, heq.symm⟩).1
    have hop' : (ArenaOp.allocate bytes align).Aligned := halign _ (by simp [heq, hop])
    rw [hbegin, UInt64.le_iff_toNat_le] at hle
    refine (hserves before op later heq bytes align hop).exact hB hmem hop' ?_ hle
    rw [hend, UInt64.toNat_add, Nat.mod_eq_of_lt hfit]
  · rintro ⟨hfit, hexact⟩
    have hinv : ∀ before, before <+: ops → B.Inv mem size (B.after a before) := by
      rintro before ⟨later, rfl⟩
      exact inv_after hB ha hmem hfit (fun op hop => halign op (List.mem_append_left _ hop))
        (hexact.of_append)
    refine ⟨fun before hpre => ?_, fun before op later heq bytes align hop => ?_⟩
    · have hi := hinv before hpre
      rw [UInt64.le_iff_toNat_le, UInt64.le_iff_toNat_le, hi.end_, hi.begin_]
      exact ⟨hi.le_cur, hi.cur_le⟩
    · have hop' : (ArenaOp.allocate bytes align).Aligned := halign _ (by simp [heq, hop])
      exact ((hinv before ⟨op :: later, heq.symm⟩).allocate hB hmem hop'
        (hexact before op later heq bytes align hop)).2

/-- **When the bump arenas hand out disjoint memory**: in a run over a buffer at `mem`, both
arenas are correct exactly if the end of the buffer is an address and every call meets the
condition on its sums. -/
theorem correct_iff_exact (mem size : UInt64) (hmem : mem ≠ 0) (ops : List ArenaOp)
    (halign : ∀ op ∈ ops, op.Aligned) :
    (linearArena.Correct (.new mem size) mem.toNat (mem.toNat + size.toNat) ops
        ↔ mem.toNat + size.toNat < 2 ^ 64
          ∧ linearArena.AllExact (.new mem size) (mem.toNat + size.toNat) ops)
      ∧ ((stackArena size).Correct (.new mem) mem.toNat (mem.toNat + size.toNat) ops
        ↔ mem.toNat + size.toNat < 2 ^ 64
          ∧ (stackArena size).AllExact (.new mem) (mem.toNat + size.toNat) ops) :=
  ⟨lawful_linearArena.correct_iff rfl hmem halign,
    (lawful_stackArena size).correct_iff rfl hmem halign⟩

/-- Two blocks, of which the second has to be aligned. -/
def twoBlocks : List ArenaOp := [.allocate 8 1, .allocate 8 16]

/-- They fit a buffer of 64 bytes. -/
theorem correct_iff_exact_twoBlocks :
    linearArena.Correct (.new 4096 64) 4096 4160 twoBlocks
      ∧ (stackArena 64).Correct (.new 4096) 4096 4160 twoBlocks := by
  have halign : ∀ op ∈ twoBlocks, op.Aligned := by
    intro op hop
    obtain rfl | rfl : op = .allocate 8 1 ∨ op = .allocate 8 16 := by simpa [twoBlocks] using hop
    · exact ⟨0, rfl⟩
    · exact ⟨4, rfl⟩
  have hsplit : twoBlocks = [] ++ [ArenaOp.allocate 8 1] ++ [ArenaOp.allocate 8 16] := rfl
  obtain ⟨hlinear, hstack⟩ := correct_iff_exact 4096 64 (by decide) twoBlocks halign
  refine ⟨hlinear.mpr ⟨by decide, ?_⟩, hstack.mpr ⟨by decide, ?_⟩⟩
  · rw [hsplit]
    simp only [AllExact, History.each_concat, History.each_nil, true_and]
    refine ⟨fun bytes align hop => ?_, fun bytes align hop => ?_⟩
    · cases hop
      exact Or.inl (by decide)
    · cases hop
      exact Or.inl (by decide)
  · rw [hsplit]
    simp only [AllExact, History.each_concat, History.each_nil, true_and]
    refine ⟨fun bytes align hop => ?_, fun bytes align hop => ?_⟩
    · cases hop
      exact Or.inl (by decide)
    · cases hop
      exact Or.inl (by decide)

/-- A block of eight bytes, and then one of `2 ^ 64 - 8`. -/
def hugeRequest : List ArenaOp := [.allocate 8 1, .allocate 0xfffffffffffffff8 1]

/-- **The second request is granted**, and the cursor moves back to the beginning of the
buffer, before the block that was handed out. -/
theorem hugeRequest_granted :
    ¬ linearArena.Correct (.new 4096 64) 4096 4160 hugeRequest
      ∧ ¬ (stackArena 64).Correct (.new 4096) 4096 4160 hugeRequest
      ∧ (linearArena.after (.new 4096 64) hugeRequest).arena.cur = 4096
      ∧ (linearArena.after (.new 4096 64) hugeRequest).blocks
        = [⟨4104, 0xfffffffffffffff8⟩, ⟨4096, 8⟩] := by
  refine ⟨fun hcorrect => ?_, fun hcorrect => ?_, by decide, by decide⟩
  · have hserves := hcorrect.2 [.allocate 8 1] _ [] rfl _ _ rfl
    exact absurd (hserves.returns.mp (by decide)) (by decide)
  · have hserves := hcorrect.2 [.allocate 8 1] _ [] rfl _ _ rfl
    exact absurd (hserves.returns.mp (by decide)) (by decide)

end BumpArena
