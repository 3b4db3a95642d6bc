import Mathlib.Data.ENat.Basic
import SapCore.SignedWord

/-!
# The timeout of `wait`

`wait` takes a number of milliseconds of 64 bits and both kernels take one of 32. A
negative timeout asks to wait for ever, and each backend has a value that says so: a
negative `int` for `epoll_wait`, `INFINITE` – all bits set – for
`GetQueuedCompletionStatusEx`. Any other timeout is cut to 32 bits.

Cutting is not clamping. The first timeout past the longest finite one is already cut to a
value that says to wait for ever (`blocks_epoll_next`, `blocks_iocp_next`), longer ones come
round and are cut to short ones. So a backend does what it should up to the longest finite
timeout it has, and no further (`Backend.honours_iff_le_longest`).
-/

namespace WaitTimeout

open SignedWord

/-- `t_ms`, the argument of `epoll_wait`. -/
def epollTimeout (timeout : Int64) : Int32 :=
  if timeout < 0 then -1 else timeout.toInt32

/-- `INFINITE`. -/
def infinite : UInt32 := 0xFFFFFFFF

/-- `timeout_ms`, the argument of `GetQueuedCompletionStatusEx`. -/
def iocpTimeout (timeout : Int64) : UInt32 :=
  if timeout < 0 then infinite else timeout.toUInt64.toUInt32

/-! ## What a backend owes -/

/-- **A backend**: how long `wait` blocks at most for a timeout it is given, `⊤` for ever,
and the longest finite time the kernel can be asked for. -/
structure Backend where
  blocks : Int64 → ℕ∞
  longest : ℕ

/-- How long `epoll_wait` blocks: for ever where its argument is negative. -/
def epoll : Backend where
  blocks timeout :=
    if epollTimeout timeout < 0 then ⊤ else ((epollTimeout timeout).toInt.toNat : ℕ)
  longest := 2 ^ 31 - 1

/-- How long `GetQueuedCompletionStatusEx` blocks. -/
def iocp : Backend where
  blocks timeout :=
    if iocpTimeout timeout = infinite then ⊤ else ((iocpTimeout timeout).toNat : ℕ)
  longest := 2 ^ 32 - 2

/-- **What a backend owes for a timeout.** A negative one blocks for ever; any other blocks
for as long as it says, or as long as the kernel can be asked to, and no shorter than a
shorter one. -/
structure Backend.Honours (b : Backend) (timeout : Int64) : Prop where
  forever : timeout.toInt < 0 → b.blocks timeout = ⊤
  finite : 0 ≤ timeout.toInt → b.blocks timeout = (min timeout.toInt.toNat b.longest : ℕ)
  mono : ∀ shorter : Int64, 0 ≤ shorter.toInt → shorter ≤ timeout →
    b.blocks shorter ≤ b.blocks timeout

/-- **A backend whose timeouts are cut** honours those up to its longest finite one: the
next already blocks for ever, which no longer one does that is honoured. -/
theorem Backend.honours_iff_le_longest {b : Backend}
    (hneg : ∀ t : Int64, t.toInt < 0 → b.blocks t = ⊤)
    (hfits : ∀ t : Int64, 0 ≤ t.toInt → t.toInt ≤ b.longest → b.blocks t = (t.toInt.toNat : ℕ))
    (hnext : ∃ t : Int64, t.toInt = b.longest + 1 ∧ b.blocks t = ⊤) (timeout : Int64) :
    b.Honours timeout ↔ timeout.toInt ≤ b.longest := by
  constructor
  · intro h
    by_contra hlong
    obtain ⟨next, hval, htop⟩ := hnext
    have hle := h.mono next (by omega) (Int64.le_iff_toInt_le.mpr (by omega))
    rw [htop, h.finite (by omega), top_le_iff] at hle
    exact ENat.natCast_ne_top _ hle
  · intro hle
    refine ⟨hneg timeout, fun h0 => ?_, fun shorter h0 hshort => ?_⟩
    · rw [hfits timeout h0 hle, Nat.min_eq_left (by omega)]
    · have hvals := Int64.le_iff_toInt_le.mp hshort
      rw [hfits shorter h0 (by omega), hfits timeout (by omega) hle]
      exact Nat.cast_le.mpr (by omega)

/-! ## The two backends -/

theorem epollTimeout_of_neg {timeout : Int64} (hneg : timeout.toInt < 0) :
    epollTimeout timeout = -1 :=
  if_pos (lt_zero_iff.mpr hneg)

theorem iocpTimeout_of_neg {timeout : Int64} (hneg : timeout.toInt < 0) :
    iocpTimeout timeout = infinite :=
  if_pos (lt_zero_iff.mpr hneg)

/-- A timeout that is not negative is cut to a signed word of 32 bits. -/
theorem toInt_epollTimeout {timeout : Int64} (hpos : 0 ≤ timeout.toInt) :
    (epollTimeout timeout).toInt = timeout.toInt.bmod (2 ^ 32) := by
  rw [epollTimeout, if_neg (mt lt_zero_iff.mp (Int.not_lt.mpr hpos)),
    Int64.toInt_toInt32]

/-- A timeout that is not negative is cut to an unsigned word of 32 bits. -/
theorem toNat_iocpTimeout {timeout : Int64} (hpos : 0 ≤ timeout.toInt) :
    ((iocpTimeout timeout).toNat : ℤ) = timeout.toInt % 2 ^ 32 := by
  have hword := toNat_toUInt64 timeout
  rw [iocpTimeout, if_neg (mt lt_zero_iff.mp (Int.not_lt.mpr hpos)),
    UInt64.toNat_toUInt32]
  omega

theorem blocks_epoll_next : epoll.blocks 2147483648 = ⊤ := by decide

theorem blocks_iocp_next : iocp.blocks 4294967295 = ⊤ := by decide

theorem epoll_honours_iff (timeout : Int64) :
    epoll.Honours timeout ↔ timeout.toInt ≤ 2 ^ 31 - 1 := by
  refine Backend.honours_iff_le_longest ?_ ?_ ⟨2147483648, by decide, blocks_epoll_next⟩ timeout
  · intro t hneg
    exact if_pos (by rw [epollTimeout_of_neg hneg]; decide)
  · intro t hpos hle
    have hcut : (epollTimeout t).toInt = t.toInt := by
      rw [toInt_epollTimeout hpos]
      replace hle : t.toInt ≤ 2 ^ 31 - 1 := hle
      exact Int.bmod_eq_of_le (by omega) (by omega)
    show (if epollTimeout t < 0 then ⊤ else ((epollTimeout t).toInt.toNat : ℕ∞)) = _
    have hfinite : ¬ epollTimeout t < 0 := by
      rw [Int32.lt_iff_toInt_lt, hcut]
      exact Int.not_lt.mpr hpos
    rw [if_neg hfinite, hcut]

theorem iocp_honours_iff (timeout : Int64) :
    iocp.Honours timeout ↔ timeout.toInt ≤ 2 ^ 32 - 2 := by
  refine Backend.honours_iff_le_longest ?_ ?_ ⟨4294967295, by decide, blocks_iocp_next⟩ timeout
  · intro t hneg
    exact if_pos (iocpTimeout_of_neg hneg)
  · intro t hpos hle
    have hcut := toNat_iocpTimeout hpos
    replace hle : t.toInt ≤ 2 ^ 32 - 2 := hle
    have hfinite : iocpTimeout t ≠ infinite := by
      intro h
      rw [h, show ((infinite.toNat : ℕ) : ℤ) = 2 ^ 32 - 1 from rfl] at hcut
      omega
    show (if iocpTimeout t = infinite then ⊤ else ((iocpTimeout t).toNat : ℕ∞)) = _
    rw [if_neg hfinite]
    congr 1
    omega

/-- **The timeouts that both backends honour** are those of an `int`. -/
theorem honours_iff (timeout : Int64) :
    epoll.Honours timeout ∧ iocp.Honours timeout ↔ timeout.toInt ≤ 2 ^ 31 - 1 := by
  rw [epoll_honours_iff, iocp_honours_iff]
  omega

/-- **Long timeouts.** A timeout of `2 ^ 31` milliseconds makes `epoll_wait` block for ever,
one of `2 ^ 32 - 1` makes `GetQueuedCompletionStatusEx` block for ever, and one of `2 ^ 32`
makes both return at once. -/
theorem longTimeout_not_honoured :
    epollTimeout 2147483648 = -2147483648 ∧ iocpTimeout 4294967295 = infinite
      ∧ epoll.blocks 4294967296 = 0 ∧ iocp.blocks 4294967296 = 0
      ∧ ¬ epoll.Honours 2147483648 ∧ ¬ iocp.Honours 4294967295
      ∧ ¬ epoll.Honours 4294967296 ∧ ¬ iocp.Honours 4294967296 := by
  simp only [epoll_honours_iff, iocp_honours_iff]
  decide

end WaitTimeout
