import Mathlib.Tactic.Ring

/-!
# Words as bytes in memory

A machine keeps a word of `k` bytes in `k` consecutive cells, and the two
machines that matter differ only in which end comes first. `ByteOrder` is
that choice, `image` is what storing a word leaves in memory and `value` is
what loading it back reads; the two are inverse on words of the width and on
blocks of the width (`value_image`, `image_value`).

Network order is the big-endian image, whatever the machine. A machine
produces it by converting the word first (`toNetwork`: nothing to do on a
big-endian machine, a byte reversal on a little-endian one) and storing the
result as it stores any word – `image_toNetwork` says that this does give the
big-endian image on both.

Everything is stated on naturals with an explicit width, so that a word of
two halves can be cut in two (`lowFirst_add`).
-/

/-- **The order a machine keeps the bytes of a word in.** -/
inductive ByteOrder where
  /-- The least significant byte has the lowest address. -/
  | little
  /-- The most significant byte has the lowest address. -/
  | big
  deriving DecidableEq, Repr

namespace ByteOrder

/-! ## The bytes of a number -/

/-- The `k` low bytes of a number, the least significant first. -/
def lowFirst : ℕ → ℕ → List UInt8
  | 0, _ => []
  | k + 1, n => UInt8.ofNat n :: lowFirst k (n / 256)

/-- The number a block of bytes denotes, the least significant first. -/
def ofLowFirst : List UInt8 → ℕ
  | [] => 0
  | b :: bs => b.toNat + 256 * ofLowFirst bs

@[simp] theorem length_lowFirst (k n : ℕ) : (lowFirst k n).length = k := by
  induction k generalizing n with
  | zero => rfl
  | succ k ih => rw [lowFirst, List.length_cons, ih]

/-- A block of `k` bytes denotes a number of `k` bytes. -/
theorem ofLowFirst_lt (bs : List UInt8) : ofLowFirst bs < 256 ^ bs.length := by
  induction bs with
  | nil => exact Nat.one_pos
  | cons b bs ih =>
    have hb : b.toNat < 256 := b.toNat_lt
    rw [ofLowFirst, List.length_cons, Nat.pow_succ]
    omega

/-- Reading the bytes of a number back keeps what fits the width. -/
theorem ofLowFirst_lowFirst (k n : ℕ) : ofLowFirst (lowFirst k n) = n % 256 ^ k := by
  induction k generalizing n with
  | zero => rw [Nat.pow_zero, Nat.mod_one]; rfl
  | succ k ih =>
    have hb : (UInt8.ofNat n).toNat = n % 256 := UInt8.toNat_ofNat'
    rw [lowFirst, ofLowFirst, ih, hb, Nat.pow_succ', Nat.mod_mul]

/-- Writing out the number a block denotes gives the block back. -/
theorem lowFirst_ofLowFirst (bs : List UInt8) :
    lowFirst bs.length (ofLowFirst bs) = bs := by
  induction bs with
  | nil => rfl
  | cons b bs ih =>
    have hb : b.toNat < 256 := b.toNat_lt
    have hlow : UInt8.ofNat (b.toNat + 256 * ofLowFirst bs) = b := by
      refine UInt8.toNat_inj.mp ?_
      rw [UInt8.toNat_ofNat']
      omega
    have hhigh : (b.toNat + 256 * ofLowFirst bs) / 256 = ofLowFirst bs := by omega
    rw [List.length_cons, lowFirst, ofLowFirst, hlow, hhigh, ih]

/-- **A wide word is two narrow ones**: its low bytes, then those of the
quotient. -/
theorem lowFirst_add (j k n : ℕ) :
    lowFirst (j + k) n = lowFirst j n ++ lowFirst k (n / 256 ^ j) := by
  induction j generalizing n with
  | zero => rw [Nat.zero_add, Nat.pow_zero, Nat.div_one]; rfl
  | succ j ih =>
    rw [Nat.add_right_comm, lowFirst, lowFirst, ih, List.cons_append,
      Nat.div_div_eq_div_mul, ← Nat.pow_succ']

/-- Only the part of a number that fits the width is written. -/
theorem lowFirst_mod (k n : ℕ) : lowFirst k (n % 256 ^ k) = lowFirst k n := by
  have hlen := lowFirst_ofLowFirst (lowFirst k n)
  rwa [length_lowFirst, ofLowFirst_lowFirst] at hlen

/-! ## Storing and loading -/

/-- **What storing a word of `k` bytes leaves in memory**, lowest address
first. -/
def image : ByteOrder → ℕ → ℕ → List UInt8
  | .little, k, n => lowFirst k n
  | .big, k, n => (lowFirst k n).reverse

/-- **What loading a block of memory as one word reads.** -/
def value : ByteOrder → List UInt8 → ℕ
  | .little, bs => ofLowFirst bs
  | .big, bs => ofLowFirst bs.reverse

@[simp] theorem length_image (o : ByteOrder) (k n : ℕ) : (o.image k n).length = k := by
  cases o with
  | little => exact length_lowFirst k n
  | big => rw [image, List.length_reverse, length_lowFirst]

theorem value_lt (o : ByteOrder) (bs : List UInt8) : o.value bs < 256 ^ bs.length := by
  cases o with
  | little => exact ofLowFirst_lt bs
  | big =>
    rw [← List.length_reverse]
    exact ofLowFirst_lt bs.reverse

/-- Loading what was stored reads the word. -/
theorem value_image (o : ByteOrder) {k n : ℕ} (h : n < 256 ^ k) :
    o.value (o.image k n) = n := by
  cases o with
  | little => rw [image, value, ofLowFirst_lowFirst, Nat.mod_eq_of_lt h]
  | big =>
    rw [image, value, List.reverse_reverse, ofLowFirst_lowFirst, Nat.mod_eq_of_lt h]

/-- Storing what was loaded leaves the block as it was. -/
theorem image_value (o : ByteOrder) {k : ℕ} {bs : List UInt8} (h : bs.length = k) :
    o.image k (o.value bs) = bs := by
  subst h
  cases o with
  | little => exact lowFirst_ofLowFirst bs
  | big =>
    have hrev := lowFirst_ofLowFirst bs.reverse
    rw [List.length_reverse] at hrev
    rw [image, value, hrev, List.reverse_reverse]

/-! ## Network order -/

/-- A word with its bytes in the opposite order. -/
def swap (k n : ℕ) : ℕ := ofLowFirst (lowFirst k n).reverse

theorem swap_lt (k n : ℕ) : swap k n < 256 ^ k := by
  have h := ofLowFirst_lt (lowFirst k n).reverse
  rwa [List.length_reverse, length_lowFirst] at h

/-- The bytes of the reversed word are the reversed bytes of the word. -/
theorem lowFirst_swap (k n : ℕ) : lowFirst k (swap k n) = (lowFirst k n).reverse := by
  have h := lowFirst_ofLowFirst (lowFirst k n).reverse
  rwa [List.length_reverse, length_lowFirst] at h

/-- Reversing twice changes nothing. -/
theorem swap_swap {k n : ℕ} (h : n < 256 ^ k) : swap k (swap k n) = n := by
  rw [swap, lowFirst_swap, List.reverse_reverse, ofLowFirst_lowFirst, Nat.mod_eq_of_lt h]

/-- **The conversion between a machine's own order and network order**: the
identity on a big-endian machine, a byte reversal on a little-endian one. It
serves both ways. -/
def toNetwork : ByteOrder → ℕ → ℕ → ℕ
  | .little, k, n => swap k n
  | .big, _, n => n

theorem toNetwork_lt (o : ByteOrder) {k n : ℕ} (h : n < 256 ^ k) :
    o.toNetwork k n < 256 ^ k := by
  cases o with
  | little => exact swap_lt k n
  | big => exact h

/-- The conversion undoes itself. -/
theorem toNetwork_toNetwork (o : ByteOrder) {k n : ℕ} (h : n < 256 ^ k) :
    o.toNetwork k (o.toNetwork k n) = n := by
  cases o with
  | little => exact swap_swap h
  | big => rfl

/-- **Storing a converted word leaves it in network order**, on either
machine. -/
theorem image_toNetwork (o : ByteOrder) (k n : ℕ) :
    o.image k (o.toNetwork k n) = ByteOrder.big.image k n := by
  cases o with
  | little => exact lowFirst_swap k n
  | big => rfl

/-- The big-endian image of a word of two halves is that of the upper half,
then that of the lower. -/
theorem big_image_add (j k n : ℕ) :
    ByteOrder.big.image (j + k) n
      = ByteOrder.big.image k (n / 256 ^ j) ++ ByteOrder.big.image j n := by
  rw [image, lowFirst_add, List.reverse_append]
  rfl

end ByteOrder
