import Mathlib.Data.Nat.Bitwise
import SapCore.RingBuffer

/-!
# The single-producer, single-consumer queue

`stl::spsc_queue` is a ring of `Capacity` slots with two indices: the producer
alone moves `m_head`, the consumer alone moves `m_tail`, and one slot is kept
free so that equal indices mean empty. `try_push` and `try_pop` each touch the
shared memory four times, and between two of those accesses the other side may
do anything. The model therefore gives a call a place (`Push`, `Pop`: the access
it is about to make, with what it has already read) and one function per
operation that makes a single access (`tryPush`, `tryPop`).

Two calls of `try_push` differ in whether the item is copied or moved in; that
is the caller's business, and both are this one.

`Inv` ties the memory to two sequences the memory does not hold: the items
pushed and the items popped since the start. The indices are their lengths
reduced modulo the capacity, and the slots hold the part of the first that is
not in the second. `Push.Ok` and `Pop.Ok` add what a half-finished call knows:
that its stale copy of an index still bounds the real one. Each side's accesses
keep the invariant, its own knowledge and the other side's
(`tryPush_spec`, `tryPop_spec`).
-/

/-- `stl::spsc_queue`: the memory the two sides share. -/
structure SpscQueue (α : Type) where
  /-- `m_head`: where the next item goes. -/
  head : ℕ
  /-- `m_tail`: where the next item comes from. -/
  tail : ℕ
  /-- `m_buffer`. -/
  buffer : ℕ → α

namespace SpscQueue

variable {α : Type}

/-- `(index + 1) & (Capacity - 1)`. -/
def next (capacity index : ℕ) : ℕ := (index + 1) &&& (capacity - 1)

/-- **Where a call of `try_push` stands**: the access it makes next. -/
inductive Push (α : Type) where
  /-- `m_head.load`. -/
  | loadHead (item : α)
  /-- `m_tail.load`, to be compared with the index after `head`. -/
  | loadTail (item : α) (head : ℕ)
  /-- `m_buffer[head] = item`. -/
  | writeSlot (item : α) (head : ℕ)
  /-- `m_head.store`. -/
  | storeHead (item : α) (head : ℕ)
  deriving DecidableEq, Repr

/-- **Where a call of `try_pop` stands.** -/
inductive Pop (α : Type) where
  /-- `m_tail.load`. -/
  | loadTail
  /-- `m_head.load`, to be compared with `tail`. -/
  | loadHead (tail : ℕ)
  /-- `item = m_buffer[tail]`. -/
  | readSlot (tail : ℕ)
  /-- `m_tail.store`. -/
  | storeTail (tail : ℕ) (item : α)
  deriving DecidableEq, Repr

/-- **One access of `try_push`**: the memory after it, and where the call then
stands or what it returns. -/
def tryPush (capacity : ℕ) (q : SpscQueue α) : Push α → SpscQueue α × (Push α ⊕ Bool)
  | .loadHead item => (q, .inl (.loadTail item q.head))
  | .loadTail item head =>
    if next capacity head = q.tail then (q, .inr false) else (q, .inl (.writeSlot item head))
  | .writeSlot item head =>
    ({ q with buffer := Function.update q.buffer head item }, .inl (.storeHead item head))
  | .storeHead _ head => ({ q with head := next capacity head }, .inr true)

/-- **One access of `try_pop`**: the memory after it, and where the call then
stands or what it returns – `none` for `false`, the item for `true`. -/
def tryPop (capacity : ℕ) (q : SpscQueue α) : Pop α → SpscQueue α × (Pop α ⊕ Option α)
  | .loadTail => (q, .inl (.loadHead q.tail))
  | .loadHead tail => if tail = q.head then (q, .inr none) else (q, .inl (.readSlot tail))
  | .readSlot tail => (q, .inl (.storeTail tail (q.buffer tail)))
  | .storeTail tail item => ({ q with tail := next capacity tail }, .inr (some item))

/-- The item an access of `try_push` makes part of the queue: the store of the
head publishes it. -/
def Push.published : Push α → List α
  | .loadHead _ => []
  | .loadTail _ _ => []
  | .writeSlot _ _ => []
  | .storeHead item _ => [item]

/-- The item an access of `try_pop` takes out of the queue: the store of the
tail gives its slot back. -/
def Pop.taken : Pop α → List α
  | .loadTail => []
  | .loadHead _ => []
  | .readSlot _ => []
  | .storeTail _ item => [item]

/-- The item a call of `try_push` was made with. -/
def Push.item : Push α → α
  | .loadHead item => item
  | .loadTail item _ => item
  | .writeSlot item _ => item
  | .storeHead item _ => item

/-- **What a call of `try_push` publishes**: nothing until it returns `true`,
and then the item it was made with. -/
theorem tryPush_published {c : ℕ} {q q' : SpscQueue α} {pc : Push α} {out : Push α ⊕ Bool}
    (hstep : tryPush c q pc = (q', out)) :
    (∀ pc', out = .inl pc' → pc.published = [] ∧ pc'.item = pc.item)
      ∧ (out = .inr false → pc.published = [])
      ∧ (out = .inr true → pc.published = [pc.item]) := by
  cases pc with
  | loadTail item head =>
    rw [tryPush] at hstep
    split at hstep <;> cases hstep <;> simp [Push.published, Push.item]
  | _ => cases hstep; simp [Push.published, Push.item]

/-- **What a call of `try_pop` takes**: nothing until it returns an item, and
then that one. -/
theorem tryPop_taken {c : ℕ} {q q' : SpscQueue α} {pc : Pop α} {out : Pop α ⊕ Option α}
    (hstep : tryPop c q pc = (q', out)) :
    (∀ pc', out = .inl pc' → pc.taken = [])
      ∧ (out = .inr none → pc.taken = [])
      ∧ (∀ item, out = .inr (some item) → pc.taken = [item]) := by
  cases pc with
  | loadHead tail =>
    rw [tryPop] at hstep
    split at hstep <;> cases hstep <;> simp [Pop.taken]
  | _ => cases hstep; simp [Pop.taken]

/-! ## The invariant -/

/-- **What the memory means**: the indices count the items pushed and popped,
the popped are the first of the pushed, one slot is free, and the slots hold
the rest. -/
structure Inv (c : ℕ) (q : SpscQueue α) (pushed popped : List α) : Prop where
  head_eq : q.head = pushed.length % c
  tail_eq : q.tail = popped.length % c
  fifo : popped <+: pushed
  free : pushed.length < popped.length + c
  holds : Ring.Holds c q.buffer pushed popped.length

/-- **What a call of `try_push` knows**: its copy of the head is the head, and
past the comparison there is room for one more item, which the other side can
only increase. -/
def Push.Ok (c : ℕ) (q : SpscQueue α) (pushed popped : List α) : Push α → Prop
  | .loadHead _ => True
  | .loadTail _ head => head = q.head
  | .writeSlot _ head => head = q.head ∧ pushed.length + 1 < popped.length + c
  | .storeHead item head =>
    head = q.head ∧ pushed.length + 1 < popped.length + c ∧ q.buffer head = item

/-- **What a call of `try_pop` knows**: its copy of the tail is the tail, and
past the comparison there is an item, the one it reads. -/
def Pop.Ok (q : SpscQueue α) (pushed popped : List α) : Pop α → Prop
  | .loadTail => True
  | .loadHead tail => tail = q.tail
  | .readSlot tail => tail = q.tail ∧ popped.length < pushed.length
  | .storeTail tail item => tail = q.tail ∧ pushed[popped.length]? = some item

/-- In a ring of a power of two, the mask is the remainder. -/
theorem next_mod (k n : ℕ) : next (2 ^ k) (n % 2 ^ k) = (n + 1) % 2 ^ k := by
  unfold next
  rw [Nat.and_two_pow_sub_one_eq_mod, Nat.mod_add_mod]

variable {k : ℕ} {q q' : SpscQueue α} {pushed popped : List α}

/-- An empty ring is a queue of nothing. -/
theorem inv_empty (k : ℕ) (buffer : ℕ → α) : Inv (2 ^ k) ⟨0, 0, buffer⟩ [] [] where
  head_eq := (Nat.zero_mod _).symm
  tail_eq := (Nat.zero_mod _).symm
  fifo := List.prefix_refl _
  free := Nat.lt_add_of_pos_right (Nat.two_pow_pos k)
  holds := fun i x _ hx => absurd hx (by simp)

theorem Inv.popped_le (h : Inv (2 ^ k) q pushed popped) : popped.length ≤ pushed.length :=
  h.fifo.length_le

/-- **The comparison of `try_push` finds the queue full exactly when it holds
all but one of its slots.** -/
theorem Inv.full_iff (h : Inv (2 ^ k) q pushed popped) :
    next (2 ^ k) q.head = q.tail ↔ pushed.length + 1 = popped.length + 2 ^ k := by
  have hle := h.popped_le
  have hfree := h.free
  rw [h.head_eq, h.tail_eq, next_mod]
  constructor
  · intro heq
    obtain hsame | hturn := Ring.eq_or_eq_add_of_mod_eq (c := 2 ^ k)
      (show popped.length ≤ pushed.length + 1 by omega) (by omega) heq.symm
    · omega
    · exact hturn
  · intro heq
    rw [heq, Nat.add_mod_right]

/-- **The comparison of `try_pop` finds the queue empty exactly when it is.** -/
theorem Inv.empty_iff (h : Inv (2 ^ k) q pushed popped) :
    q.tail = q.head ↔ popped.length = pushed.length := by
  have hle := h.popped_le
  have hfree := h.free
  rw [h.head_eq, h.tail_eq]
  constructor
  · intro heq
    obtain hsame | hturn := Ring.eq_or_eq_add_of_mod_eq (c := 2 ^ k) hle (by omega) heq
    · exact hsame.symm
    · omega
  · intro heq
    rw [heq]

/-- The number of items in the ring, by its indices. -/
def count (capacity : ℕ) (q : SpscQueue α) : ℕ := (q.head + capacity - q.tail) % capacity

/-- The slot of the `d`-th item in the ring, from the tail on. -/
def slot (capacity : ℕ) (q : SpscQueue α) (d : ℕ) : ℕ := (q.tail + d) % capacity

theorem Inv.count_eq (h : Inv (2 ^ k) q pushed popped) :
    q.count (2 ^ k) = pushed.length - popped.length := by
  unfold count
  rw [h.head_eq, h.tail_eq]
  exact Ring.distance h.popped_le h.free

theorem Inv.slot_eq (h : Inv (2 ^ k) q pushed popped) (d : ℕ) :
    q.slot (2 ^ k) d = (popped.length + d) % 2 ^ k := by
  unfold slot
  rw [h.tail_eq, Nat.mod_add_mod]

/-- **The ring holds, from the tail on, what was pushed and not popped.** -/
theorem Inv.buffer_slot (h : Inv (2 ^ k) q pushed popped) {d : ℕ} {x : α}
    (hx : pushed[popped.length + d]? = some x) :
    d < q.count (2 ^ k) ∧ q.buffer (q.slot (2 ^ k) d) = x := by
  obtain ⟨hlt, -⟩ := List.getElem?_eq_some_iff.mp hx
  rw [h.count_eq, h.slot_eq]
  exact ⟨by omega, h.holds _ x (Nat.le_add_right _ _) hx⟩

/-- **The slot a `try_push` writes is none of those that hold an item.** -/
theorem Inv.slot_free (h : Inv (2 ^ k) q pushed popped) {i : ℕ} (hlo : popped.length ≤ i)
    (hhi : i < pushed.length) : i % 2 ^ k ≠ q.head := by
  have hfree := h.free
  rw [h.head_eq]
  exact Ring.mod_ne_of_lt hhi (by omega)

/-! ## The accesses of the producer -/

/-- **Each access of `try_push` keeps the invariant** and what the call knows,
with the item it publishes added to those pushed; and the call fails only on a
full queue. -/
theorem tryPush_spec {pc : Push α} {out : Push α ⊕ Bool} (h : Inv (2 ^ k) q pushed popped)
    (hpc : pc.Ok (2 ^ k) q pushed popped) (hstep : tryPush (2 ^ k) q pc = (q', out)) :
    Inv (2 ^ k) q' (pushed ++ pc.published) popped
      ∧ (∀ pc', out = .inl pc' → pc'.Ok (2 ^ k) q' pushed popped)
      ∧ (out = .inr false → pushed.length + 1 = popped.length + 2 ^ k) := by
  cases pc with
  | loadHead item =>
    cases hstep
    rw [Push.published, List.append_nil]
    refine ⟨h, ?_, by simp⟩
    rintro pc' ⟨⟩
    exact rfl
  | loadTail item head =>
    have hhead : head = q.head := hpc
    subst hhead
    rw [Push.published, List.append_nil]
    rw [tryPush] at hstep
    split at hstep
    · rename_i hfull
      cases hstep
      exact ⟨h, by simp, fun _ => h.full_iff.mp hfull⟩
    · -- there is room, and the consumer can only make more
      rename_i hroom
      cases hstep
      refine ⟨h, ?_, by simp⟩
      rintro pc' ⟨⟩
      have hne : ¬ pushed.length + 1 = popped.length + 2 ^ k := fun heq =>
        hroom (h.full_iff.mpr heq)
      have hfree := h.free
      exact ⟨rfl, by omega⟩
  | writeSlot item head =>
    obtain ⟨rfl, hroom⟩ := hpc
    cases hstep
    rw [Push.published, List.append_nil]
    refine ⟨⟨h.head_eq, h.tail_eq, h.fifo, h.free, ?_⟩, ?_, by simp⟩
    · show Ring.Holds _ (Function.update q.buffer q.head item) _ _
      rw [h.head_eq]
      exact h.holds.write (by omega) item
    · rintro pc' ⟨⟩
      exact ⟨rfl, hroom, Function.update_self _ _ _⟩
  | storeHead item head =>
    obtain ⟨rfl, hroom, hslot⟩ := hpc
    cases hstep
    -- the slot past the window holds the item already: the store takes it in
    refine ⟨⟨?_, h.tail_eq, ?_, ?_, ?_⟩, by simp, by simp⟩
    · show next (2 ^ k) q.head = _
      rw [h.head_eq, next_mod]
      simp [Push.published]
    · exact h.fifo.trans (List.prefix_append _ _)
    · simpa [Push.published] using hroom
    · exact h.holds.snoc (by rw [← h.head_eq]; exact hslot)

/-- **The producer's accesses leave the consumer's call what it knows.** -/
theorem tryPush_keeps_pop {pc : Push α} {out : Push α ⊕ Bool} {pop : Pop α}
    (hpop : pop.Ok q pushed popped) (hstep : tryPush (2 ^ k) q pc = (q', out)) :
    pop.Ok q' (pushed ++ pc.published) popped := by
  have htail : q'.tail = q.tail := by
    cases pc with
    | loadTail item head =>
      rw [tryPush] at hstep
      split at hstep <;> cases hstep <;> rfl
    | _ => cases hstep; rfl
  cases pop with
  | loadTail => exact trivial
  | loadHead tail => exact Eq.trans hpop htail.symm
  | readSlot tail =>
    refine ⟨hpop.1.trans htail.symm, ?_⟩
    rw [List.length_append]
    exact Nat.lt_of_lt_of_le hpop.2 (Nat.le_add_right _ _)
  | storeTail tail item =>
    refine ⟨hpop.1.trans htail.symm, ?_⟩
    obtain ⟨hlt, -⟩ := List.getElem?_eq_some_iff.mp hpop.2
    rw [List.getElem?_append_left hlt]
    exact hpop.2

/-! ## The accesses of the consumer -/

/-- **Each access of `try_pop` keeps the invariant** and what the call knows,
with the item it takes added to those popped; and the call fails only on an
empty queue. -/
theorem tryPop_spec {pc : Pop α} {out : Pop α ⊕ Option α} (h : Inv (2 ^ k) q pushed popped)
    (hpc : pc.Ok q pushed popped) (hstep : tryPop (2 ^ k) q pc = (q', out)) :
    Inv (2 ^ k) q' pushed (popped ++ pc.taken)
      ∧ (∀ pc', out = .inl pc' → pc'.Ok q' pushed popped)
      ∧ (out = .inr none → popped.length = pushed.length) := by
  cases pc with
  | loadTail =>
    cases hstep
    rw [Pop.taken, List.append_nil]
    refine ⟨h, ?_, by simp⟩
    rintro pc' ⟨⟩
    exact rfl
  | loadHead tail =>
    have htail : tail = q.tail := hpc
    subst htail
    rw [Pop.taken, List.append_nil]
    rw [tryPop] at hstep
    split at hstep
    · rename_i hempty
      cases hstep
      exact ⟨h, by simp, fun _ => h.empty_iff.mp hempty⟩
    · rename_i hsome
      cases hstep
      refine ⟨h, ?_, by simp⟩
      rintro pc' ⟨⟩
      have hne : ¬ popped.length = pushed.length := fun heq => hsome (h.empty_iff.mpr heq)
      have hle := h.popped_le
      exact ⟨rfl, by omega⟩
  | readSlot tail =>
    obtain ⟨rfl, hlt⟩ := hpc
    cases hstep
    rw [Pop.taken, List.append_nil]
    refine ⟨h, ?_, by simp⟩
    rintro pc' ⟨⟩
    refine ⟨rfl, ?_⟩
    have hget : pushed[popped.length]? = some pushed[popped.length] := List.getElem?_eq_getElem hlt
    rw [hget, h.tail_eq, h.holds.read hget]
  | storeTail tail item =>
    obtain ⟨rfl, hget⟩ := hpc
    obtain ⟨hlt, hitem⟩ := List.getElem?_eq_some_iff.mp hget
    cases hstep
    refine ⟨⟨h.head_eq, ?_, ?_, ?_, ?_⟩, by simp, by simp⟩
    · show next (2 ^ k) q.tail = _
      rw [h.tail_eq, next_mod]
      simp [Pop.taken]
    · -- the item taken is the first of those not taken before
      obtain ⟨rest, hrest⟩ := h.fifo
      subst hrest
      rw [List.getElem?_append_right (le_refl _), Nat.sub_self] at hget
      cases rest with
      | nil => cases hget
      | cons x rest =>
        cases hget
        exact ⟨rest, by simp [Pop.taken]⟩
    · have hfree := h.free
      simp only [Pop.taken, List.length_append, List.length_singleton]
      omega
    · refine h.holds.shrink ?_
      rw [List.length_append]
      exact Nat.le_add_right _ _

/-- **The consumer's accesses leave the producer's call what it knows.** -/
theorem tryPop_keeps_push {pc : Pop α} {out : Pop α ⊕ Option α} {push : Push α}
    (hpush : push.Ok (2 ^ k) q pushed popped) (hstep : tryPop (2 ^ k) q pc = (q', out)) :
    push.Ok (2 ^ k) q' pushed (popped ++ pc.taken) := by
  have hsame : q'.head = q.head ∧ q'.buffer = q.buffer := by
    cases pc with
    | loadHead tail =>
      rw [tryPop] at hstep
      split at hstep <;> cases hstep <;> exact ⟨rfl, rfl⟩
    | _ => cases hstep; exact ⟨rfl, rfl⟩
  obtain ⟨hhead, hbuffer⟩ := hsame
  have hlen : popped.length ≤ (popped ++ pc.taken).length := by
    rw [List.length_append]
    exact Nat.le_add_right _ _
  cases push with
  | loadHead item => exact trivial
  | loadTail item head => exact Eq.trans hpush hhead.symm
  | writeSlot item head => exact ⟨hpush.1.trans hhead.symm, by have := hpush.2; omega⟩
  | storeHead item head =>
    refine ⟨hpush.1.trans hhead.symm, by have := hpush.2.1; omega, ?_⟩
    rw [hbuffer]
    exact hpush.2.2

end SpscQueue
