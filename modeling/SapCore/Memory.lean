import Mathlib.Data.List.GetD
import SapCore.ByteOrder

/-!
# A memory of bytes, and lists threaded through it

Memory is a byte at every address. A word is stored as its image, in the order of the
machine, and loaded as the value of the bytes at its place; it is changed by a write to
one of its own bytes only.

A list can be threaded through memory without further storage: every node holds the
address of the next one in its first bytes, and the last holds the null address.
`Threads` says which nodes are on the list that begins at an address.
-/

/-- **A memory**: the byte at every address. -/
def Memory : Type := ℕ → UInt8

namespace Memory

variable {m m' : Memory} {o : ByteOrder} {k n p q v : ℕ}

/-- The bytes from an address on. -/
def bytesAt (m : Memory) (p n : ℕ) : List UInt8 := (List.range n).map (fun i => m (p + i))

/-- Write bytes from an address on. -/
def write (m : Memory) (p : ℕ) (bytes : List UInt8) : Memory :=
  fun x => if p ≤ x ∧ x < p + bytes.length then bytes.getD (x - p) 0 else m x

/-- **Load a word** of `k` bytes. -/
def load (o : ByteOrder) (k : ℕ) (m : Memory) (p : ℕ) : ℕ := o.value (m.bytesAt p k)

/-- **Store a word** of `k` bytes. -/
def store (o : ByteOrder) (k : ℕ) (m : Memory) (p v : ℕ) : Memory := m.write p (o.image k v)

/-- The memories agree on a range. -/
def AgreesOn (m m' : Memory) (p n : ℕ) : Prop := ∀ x, p ≤ x → x < p + n → m' x = m x

theorem AgreesOn.bytesAt_eq (h : m.AgreesOn m' p n) : m'.bytesAt p n = m.bytesAt p n :=
  List.map_congr_left (fun i hi =>
    h (p + i) (Nat.le_add_right p i) (Nat.add_lt_add_left (List.mem_range.mp hi) p))

theorem AgreesOn.load_eq (h : m.AgreesOn m' p k) : m'.load o k p = m.load o k p := by
  rw [load, h.bytesAt_eq, load]

/-- A write leaves what is not in its range. -/
theorem write_of_not_mem {bytes : List UInt8} {x : ℕ} (h : ¬ (p ≤ x ∧ x < p + bytes.length)) :
    m.write p bytes x = m x := if_neg h

/-- **A store leaves the ranges that are apart from its own.** -/
theorem agreesOn_store (h : q + n ≤ p ∨ p + k ≤ q) : m.AgreesOn (m.store o k p v) q n := by
  intro x hx hx'
  refine write_of_not_mem (fun hmem => ?_)
  rw [ByteOrder.length_image] at hmem
  omega

theorem bytesAt_write (m : Memory) (p : ℕ) (bytes : List UInt8) :
    (m.write p bytes).bytesAt p bytes.length = bytes := by
  refine List.ext_getElem (by simp [bytesAt]) (fun i hi hi' => ?_)
  simp [bytesAt, write, hi']

/-- Bytes written one after the other. -/
theorem write_append (m : Memory) (p : ℕ) (bytes more : List UInt8) :
    m.write p (bytes ++ more) = (m.write p bytes).write (p + bytes.length) more := by
  funext x
  simp only [write, List.length_append]
  by_cases hmore : p + bytes.length ≤ x ∧ x < p + bytes.length + more.length
  · rw [if_pos hmore, if_pos (by omega), List.getD_append_right _ _ _ _ (by omega), Nat.sub_add_eq]
  · rw [if_neg hmore]
    by_cases hbytes : p ≤ x ∧ x < p + bytes.length
    · rw [if_pos hbytes, if_pos (by omega), List.getD_append _ _ _ _ (by omega)]
    · rw [if_neg hbytes, if_neg (by omega)]

theorem length_bytesAt (m : Memory) (p n : ℕ) : (m.bytesAt p n).length = n := by
  rw [bytesAt, List.length_map, List.length_range]

theorem bytesAt_add (m : Memory) (p k n : ℕ) :
    m.bytesAt p (k + n) = m.bytesAt p k ++ m.bytesAt (p + k) n := by
  simp only [bytesAt, List.range_add, List.map_append, List.map_map, List.append_cancel_left_eq]
  refine List.map_congr_left (fun i _ => ?_)
  exact congrArg m (Nat.add_assoc p k i).symm

theorem take_bytesAt (m : Memory) (p : ℕ) (h : k ≤ n) : (m.bytesAt p n).take k = m.bytesAt p k := by
  rw [bytesAt, ← List.map_take, List.take_range, Nat.min_eq_left h, bytesAt]

/-- What is written after the bytes that stand there is read after them. -/
theorem bytesAt_write_add (m : Memory) (p k : ℕ) (bytes : List UInt8) :
    (m.write (p + k) bytes).bytesAt p (k + bytes.length) = m.bytesAt p k ++ bytes := by
  rw [bytesAt_add, bytesAt_write]
  refine congrArg (· ++ bytes) (AgreesOn.bytesAt_eq (fun x hx hx' => ?_))
  exact write_of_not_mem (by omega)

/-- **A word that was stored is loaded.** -/
theorem load_store (hv : v < 256 ^ k) : (m.store o k p v).load o k p = v := by
  have hbytes : (m.store o k p v).bytesAt p k = o.image k v := by
    have h := bytesAt_write m p (o.image k v)
    rwa [ByteOrder.length_image] at h
  rw [load, hbytes, ByteOrder.value_image o hv]

/-! ## Threaded lists -/

/-- **The list threaded through memory from an address on.** The first `k` bytes of a node
hold the address of the next, and the null address is zero. -/
def Threads (o : ByteOrder) (k : ℕ) (m : Memory) : ℕ → List ℕ → Prop
  | head, [] => head = 0
  | head, p :: rest => head = p ∧ p ≠ 0 ∧ Threads o k m (m.load o k p) rest

variable {head : ℕ} {l : List ℕ}

/-- A threaded list is kept by what does not touch its nodes. -/
theorem Threads.congr (h : Threads o k m head l) (hsame : ∀ p ∈ l, m.AgreesOn m' p k) :
    Threads o k m' head l := by
  induction l generalizing head with
  | nil => exact h
  | cons p rest ih =>
    refine ⟨h.1, h.2.1, ?_⟩
    rw [(hsame p List.mem_cons_self).load_eq]
    exact ih h.2.2 (fun q hq => hsame q (List.mem_cons_of_mem p hq))

/-- **A node is put in front**: the old head is stored in it. -/
theorem Threads.push (h : Threads o k m head l) (hp : p ≠ 0) (hhead : head < 256 ^ k)
    (hapart : ∀ q ∈ l, q + k ≤ p ∨ p + k ≤ q) :
    Threads o k (m.store o k p head) p (p :: l) := by
  refine ⟨rfl, hp, ?_⟩
  rw [load_store hhead]
  exact h.congr (fun q hq => agreesOn_store (hapart q hq))

end Memory
