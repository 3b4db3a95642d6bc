import SapCore.Machine
import SapCore.ReleaseAcquire
import SapCore.SpscQueueRuns

/-!
# The queue with the memory orders it asks for

`spsc_queue` asks for little: each side loads its own index relaxed and the index of the other side
with acquire, and stores its own index with release. So a side may get an index of the other that is
out of date, and the slots between the indices are plain memory, which nothing but the indices
orders. Here the two sides share a `SharedMemory` in place of one that all see alike, and every
load says which message it gets.

Two things make the queue work there. An index that is out of date errs to the safe side: the room
a `try_push` sees is less than the room there is, and the items a `try_pop` sees are fewer. And
whoever has seen an index knows what was done with the slots before it was stored. The second is a
property of views (`Knows`): a view that has seen the head after `i` items knows of all writes to
slots but those that later items go to, and one that has seen the tail after `i` items of all reads
but those of later items. It is kept when views are joined, so it does not matter through how many
threads an index has come to be known.

The queue is laid out in the memory by a `Site`, so that it can be one of several there
(`Inv.frame`).
-/

namespace SpscQueue

open SharedMemory (View Message)

/-- **Where a queue is in the memory**, and the threads that use it. -/
structure Site (τ ℓ ρ : Type) where
  producer : τ
  consumer : τ
  head : ℓ
  tail : ℓ
  slot : ℕ → ρ
  indices_ne : head ≠ tail
  slot_injective : Function.Injective slot

namespace Site

variable {τ ℓ ρ α : Type}

/-! ## The accesses -/

section Accesses

variable [DecidableEq τ] [DecidableEq ℓ] [DecidableEq ρ]

/-- **One access of `try_push`**; a load gets the `i`-th message of its location. -/
def tryPush (Q : Site τ ℓ ρ) (capacity : ℕ) (M : SharedMemory τ ℓ ℕ ρ α) (i : ℕ) :
    Push α → Option (SharedMemory τ ℓ ℕ ρ α × (Push α ⊕ Bool))
  | .loadHead item =>
    (M.loadRelaxed Q.producer Q.head i).map (fun r => (r.2, .inl (.loadTail item r.1)))
  | .loadTail item head =>
    (M.loadAcquire Q.producer Q.tail i).map (fun r =>
      (r.2, if next capacity head = r.1 then .inr false else .inl (.writeSlot item head)))
  | .writeSlot item head =>
    some (M.write Q.producer (Q.slot head) item, .inl (.storeHead item head))
  | .storeHead _ head => some (M.storeRelease Q.producer Q.head (next capacity head), .inr true)

/-- **One access of `try_pop`.** -/
def tryPop (Q : Site τ ℓ ρ) (capacity : ℕ) (M : SharedMemory τ ℓ ℕ ρ α) (i : ℕ) :
    Pop α → Option (SharedMemory τ ℓ ℕ ρ α × (Pop α ⊕ Option α))
  | .loadTail => (M.loadRelaxed Q.consumer Q.tail i).map (fun r => (r.2, .inl (.loadHead r.1)))
  | .loadHead tail =>
    (M.loadAcquire Q.consumer Q.head i).map (fun r =>
      (r.2, if tail = r.1 then .inr none else .inl (.readSlot tail)))
  | .readSlot tail =>
    some ((M.read Q.consumer (Q.slot tail)).2,
      .inl (.storeTail tail (M.read Q.consumer (Q.slot tail)).1))
  | .storeTail tail item =>
    some (M.storeRelease Q.consumer Q.tail (next capacity tail), .inr (some item))

end Accesses

/-! ## What views know of the slots -/

/-- **What a view knows of the slots**, by the indices it has seen, after `n` items were pushed and
`m` popped: the writes to a slot, unless an item goes there after the head it has seen, and the
reads, unless an item is read there after the tail it has seen. -/
structure Knows (Q : Site τ ℓ ρ) (c : ℕ) (writes reads : ℕ → ℕ) (n m : ℕ) (V : View τ ℓ) :
    Prop where
  writes : ∀ i, (∀ j, V.seen Q.head ≤ j → j ≤ n → j % c ≠ i) → writes i ≤ V.known Q.producer
  reads : ∀ i, (∀ j, V.seen Q.tail ≤ j → j ≤ m → j < n → j % c ≠ i) →
    reads i ≤ V.known Q.consumer

namespace Knows

variable {Q : Site τ ℓ ρ} {c n m : ℕ} {writes reads : ℕ → ℕ} {V W : View τ ℓ}

variable (hV : Knows Q c writes reads n m V)
include hV

/-- **What two views know, their join knows.** -/
theorem sup (hW : Knows Q c writes reads n m W) : Knows Q c writes reads n m (V ⊔ W) where
  writes i hi := by
    rw [View.known_sup]
    obtain hle | hle := le_total (V.seen Q.head) (W.seen Q.head)
    · rw [View.seen_sup, max_eq_right hle] at hi
      exact le_max_of_le_right (hW.writes i hi)
    · rw [View.seen_sup, max_eq_left hle] at hi
      exact le_max_of_le_left (hV.writes i hi)
  reads i hi := by
    rw [View.known_sup]
    obtain hle | hle := le_total (V.seen Q.tail) (W.seen Q.tail)
    · rw [View.seen_sup, max_eq_right hle] at hi
      exact le_max_of_le_right (hW.reads i hi)
    · rw [View.seen_sup, max_eq_left hle] at hi
      exact le_max_of_le_left (hV.reads i hi)

theorem tick [DecidableEq τ] (t : τ) : Knows Q c writes reads n m (V.tick t) where
  writes i hi := (hV.writes i hi).trans (View.known_le_tick _ _ _)
  reads i hi := (hV.reads i hi).trans (View.known_le_tick _ _ _)

/-- A message of another location is seen. -/
theorem see [DecidableEq ℓ] {l : ℓ} (hhead : l ≠ Q.head) (htail : l ≠ Q.tail) (k : ℕ) :
    Knows Q c writes reads n m (V.see l k) where
  writes i hi := by
    rw [View.seen_see, Function.update_of_ne hhead.symm] at hi
    exact hV.writes i hi
  reads i hi := by
    rw [View.seen_see, Function.update_of_ne htail.symm] at hi
    exact hV.reads i hi

/-- An item is pushed. -/
theorem push : Knows Q c writes reads (n + 1) m V where
  writes i hi := hV.writes i (fun j hj hjn => hi j hj (Nat.le_succ_of_le hjn))
  reads i hi := hV.reads i (fun j hj hjm hjn => hi j hj hjm (Nat.lt_succ_of_lt hjn))

/-- An item is popped. -/
theorem pop : Knows Q c writes reads n (m + 1) V where
  writes := hV.writes
  reads i hi := hV.reads i (fun j hj hjm hjn => hi j hj (Nat.le_succ_of_le hjm) hjn)

/-- The slot of the next item is written: that is not asked of any view. -/
theorem writeSlot (hseen : V.seen Q.head ≤ n) (clock : ℕ) :
    Knows Q c (Function.update writes (n % c) clock) reads n m V where
  writes i hi := by
    rw [Function.update_of_ne (hi n hseen (le_refl n)).symm]
    exact hV.writes i hi
  reads := hV.reads

/-- The slot of the first item is read. -/
theorem readSlot (hseen : V.seen Q.tail ≤ m) (hlt : m < n) (clock : ℕ) :
    Knows Q c writes (Function.update reads (m % c) clock) n m V where
  writes := hV.writes
  reads i hi := by
    rw [Function.update_of_ne (hi m hseen (le_refl m) hlt).symm]
    exact hV.reads i hi

end Knows

/-! ## The invariant -/

/-- The clocks of the writes to the slots. -/
def writeClock (Q : Site τ ℓ ρ) (M : SharedMemory τ ℓ ℕ ρ α) (i : ℕ) : ℕ :=
  (M.cell (Q.slot i)).writes Q.producer

/-- The clocks of the reads of the slots. -/
def readClock (Q : Site τ ℓ ρ) (M : SharedMemory τ ℓ ℕ ρ α) (i : ℕ) : ℕ :=
  (M.cell (Q.slot i)).reads Q.consumer

/-- **What the memory means**: the messages of the indices count the items pushed and popped, each
side has seen all messages of its own index, the producer has seen enough of the tail for the
items it pushed and the consumer enough of the head for those it popped, and the slots are
accessed by the two sides only. -/
structure Inv (Q : Site τ ℓ ρ) (c : ℕ) (M : SharedMemory τ ℓ ℕ ρ α) (pushed popped : List α) :
    Prop where
  sound : M.Sound
  heads : (M.messages Q.head).map Message.value = (List.range (pushed.length + 1)).map (· % c)
  tails : (M.messages Q.tail).map Message.value = (List.range (popped.length + 1)).map (· % c)
  published : pushed.length ≤ (M.view Q.producer).seen Q.head
  returned : popped.length ≤ (M.view Q.consumer).seen Q.tail
  room : pushed.length < (M.view Q.producer).seen Q.tail + c
  items : popped.length ≤ (M.view Q.consumer).seen Q.head
  fifo : popped <+: pushed
  holds : Ring.Holds c (fun i => (M.cell (Q.slot i)).value) pushed popped.length
  writer : ∀ i u, u ≠ Q.producer → (M.cell (Q.slot i)).writes u = 0
  reader : ∀ i u, u ≠ Q.consumer → (M.cell (Q.slot i)).reads u = 0
  views : M.Everywhere (Knows Q c (Q.writeClock M) (Q.readClock M) pushed.length popped.length)

variable {Q : Site τ ℓ ρ} {c : ℕ} {M M' : SharedMemory τ ℓ ℕ ρ α} {pushed popped : List α}

namespace Inv

variable (h : Q.Inv c M pushed popped)
include h

theorem length_heads : (M.messages Q.head).length = pushed.length + 1 := by
  simpa using congrArg List.length h.heads

theorem length_tails : (M.messages Q.tail).length = popped.length + 1 := by
  simpa using congrArg List.length h.tails

/-- The `i`-th message of the head is the index after `i` items. -/
theorem head_value {i : ℕ} {msg : Message τ ℓ ℕ} (hmsg : (M.messages Q.head)[i]? = some msg) :
    msg.value = i % c ∧ i ≤ pushed.length := by
  have hlt := (List.getElem?_eq_some_iff.mp hmsg).1
  rw [h.length_heads] at hlt
  have hget := congrArg (·[i]?) h.heads
  simp only [List.getElem?_map, hmsg, List.getElem?_range hlt, Option.map_some,
    Option.some.injEq] at hget
  exact ⟨hget, Nat.le_of_lt_succ hlt⟩

theorem tail_value {i : ℕ} {msg : Message τ ℓ ℕ} (hmsg : (M.messages Q.tail)[i]? = some msg) :
    msg.value = i % c ∧ i ≤ popped.length := by
  have hlt := (List.getElem?_eq_some_iff.mp hmsg).1
  rw [h.length_tails] at hlt
  have hget := congrArg (·[i]?) h.tails
  simp only [List.getElem?_map, hmsg, List.getElem?_range hlt, Option.map_some,
    Option.some.injEq] at hget
  exact ⟨hget, Nat.le_of_lt_succ hlt⟩

/-- Nobody has seen a head that is ahead of the items. -/
theorem seen_head_le : M.Everywhere (fun V => V.seen Q.head ≤ pushed.length) :=
  h.sound.seen.mono (fun V hV => by have := hV Q.head; rw [h.length_heads] at this; omega)

theorem seen_tail_le : M.Everywhere (fun V => V.seen Q.tail ≤ popped.length) :=
  h.sound.seen.mono (fun V hV => by have := hV Q.tail; rw [h.length_tails] at this; omega)

/-- At most all slots but one are in use. -/
theorem free : pushed.length < popped.length + c := by
  have := h.seen_tail_le.thread Q.producer
  have := h.room
  omega

/-- **What does not touch the queue keeps its invariant**, where what was known is known. -/
theorem frame (hsound : M'.Sound) (hhead : M'.messages Q.head = M.messages Q.head)
    (htail : M'.messages Q.tail = M.messages Q.tail)
    (hcell : ∀ i, M'.cell (Q.slot i) = M.cell (Q.slot i))
    (hproducer : ∀ l, (M.view Q.producer).seen l ≤ (M'.view Q.producer).seen l)
    (hconsumer : ∀ l, (M.view Q.consumer).seen l ≤ (M'.view Q.consumer).seen l)
    (hviews : M'.Everywhere
      (Knows Q c (Q.writeClock M) (Q.readClock M) pushed.length popped.length)) :
    Q.Inv c M' pushed popped where
  sound := hsound
  heads := by rw [hhead]; exact h.heads
  tails := by rw [htail]; exact h.tails
  published := h.published.trans (hproducer _)
  returned := h.returned.trans (hconsumer _)
  room := h.room.trans_le (Nat.add_le_add_right (hproducer _) c)
  items := h.items.trans (hconsumer _)
  fifo := h.fifo
  holds := by simp only [hcell]; exact h.holds
  writer i u hu := by rw [hcell]; exact h.writer i u hu
  reader i u hu := by rw [hcell]; exact h.reader i u hu
  views := by
    have hwrites : Q.writeClock M' = Q.writeClock M := funext fun i => by
      rw [writeClock, hcell, writeClock]
    have hreads : Q.readClock M' = Q.readClock M := funext fun i => by
      rw [readClock, hcell, readClock]
    rw [hwrites, hreads]
    exact hviews

/-- **An operation of any thread on other locations.** -/
theorem op [DecidableEq τ] [DecidableEq ℓ] [DecidableEq ρ] {t : τ} {target : Option (ℓ ⊕ ρ)}
    (hop : M.Op t target M') (hhead : target ≠ some (.inl Q.head))
    (htail : target ≠ some (.inl Q.tail)) (hslot : ∀ i, target ≠ some (.inr (Q.slot i))) :
    Q.Inv c M' pushed popped := by
  refine h.frame (hop.sound h.sound) (hop.messages_eq hhead) (hop.messages_eq htail)
    (fun i => hop.cell_eq (hslot i)) (hop.seen_le h.sound _) (hop.seen_le h.sound _)
    (hop.everywhere h.views (fun _ _ hV hW => hV.sup hW) (fun _ u hV => hV.tick u) ?_)
  intro V l i hl hV
  exact hV.see (fun heq => hhead (by rw [hl, heq])) (fun heq => htail (by rw [hl, heq])) i

/-- **A load by any thread.** -/
theorem load [DecidableEq τ] [DecidableEq ℓ] [DecidableEq ρ] {t : τ} (hop : M.Op t none M') :
    Q.Inv c M' pushed popped :=
  h.op hop (by simp) (by simp) (by simp)

end Inv

/-! ## The accesses of the producer -/

/-- **What a call of `try_push` knows**: its copy of the head is the head, and past the comparison
there is room for one more item even by the tail that the producer has seen. -/
def PushOk (Q : Site τ ℓ ρ) (c : ℕ) (M : SharedMemory τ ℓ ℕ ρ α) (pushed : List α) :
    Push α → Prop
  | .loadHead _ => True
  | .loadTail _ head => head = pushed.length % c
  | .writeSlot _ head =>
    head = pushed.length % c ∧ pushed.length + 1 < (M.view Q.producer).seen Q.tail + c
  | .storeHead item head =>
    head = pushed.length % c ∧ pushed.length + 1 < (M.view Q.producer).seen Q.tail + c
      ∧ (M.cell (Q.slot head)).value = item

/-- **What a call of `try_pop` knows**: its copy of the tail is the tail, and past the comparison
there is an item by the head that the consumer has seen. -/
def PopOk (Q : Site τ ℓ ρ) (c : ℕ) (M : SharedMemory τ ℓ ℕ ρ α) (pushed popped : List α) :
    Pop α → Prop
  | .loadTail => True
  | .loadHead tail => tail = popped.length % c
  | .readSlot tail =>
    tail = popped.length % c ∧ popped.length < (M.view Q.consumer).seen Q.head
  | .storeTail tail item =>
    tail = popped.length % c ∧ popped.length < (M.view Q.consumer).seen Q.head
      ∧ pushed[popped.length]? = some item

/-- What a call of `try_push` knows it goes on to know. -/
theorem PushOk.mono {pc : Push α} (hpc : Q.PushOk c M pushed pc)
    (hseen : (M.view Q.producer).seen Q.tail ≤ (M'.view Q.producer).seen Q.tail)
    (hvalue : ∀ i, (M'.cell (Q.slot i)).value = (M.cell (Q.slot i)).value) :
    Q.PushOk c M' pushed pc := by
  cases pc with
  | loadHead item => trivial
  | loadTail item head => exact hpc
  | writeSlot item head => exact ⟨hpc.1, hpc.2.trans_le (Nat.add_le_add_right hseen c)⟩
  | storeHead item head =>
    exact ⟨hpc.1, hpc.2.1.trans_le (Nat.add_le_add_right hseen c), (hvalue head).trans hpc.2.2⟩

/-- What a call of `try_pop` knows it goes on to know, -/
theorem PopOk.mono {pc : Pop α} (hpc : Q.PopOk c M pushed popped pc)
    (hseen : (M.view Q.consumer).seen Q.head ≤ (M'.view Q.consumer).seen Q.head) :
    Q.PopOk c M' pushed popped pc := by
  cases pc with
  | loadTail => trivial
  | loadHead tail => exact hpc
  | readSlot tail => exact ⟨hpc.1, hpc.2.trans_le hseen⟩
  | storeTail tail item => exact ⟨hpc.1, hpc.2.1.trans_le hseen, hpc.2.2⟩

/-- whatever is pushed. -/
theorem PopOk.append {pc : Pop α} (hpc : Q.PopOk c M pushed popped pc) (items : List α) :
    Q.PopOk c M (pushed ++ items) popped pc := by
  cases pc with
  | loadTail => trivial
  | loadHead tail => exact hpc
  | readSlot tail => exact hpc
  | storeTail tail item =>
    obtain ⟨htail, hlt, hget⟩ := hpc
    refine ⟨htail, hlt, ?_⟩
    rw [List.getElem?_append_left (List.getElem?_eq_some_iff.mp hget).1]
    exact hget

/-- **The write of a `try_push` does not race.** -/
theorem Inv.mayWrite (h : Q.Inv c M pushed popped)
    (hroom : pushed.length + 1 < (M.view Q.producer).seen Q.tail + c) :
    M.MayWrite Q.producer (Q.slot (pushed.length % c)) := by
  intro u
  constructor
  · by_cases hu : u = Q.producer
    · rw [hu]
      exact h.sound.writes _ _
    · rw [h.writer _ u hu]
      exact Nat.zero_le _
  · by_cases hu : u = Q.consumer
    · -- what was read in this slot was read before the tail that the producer has seen
      rw [hu]
      refine (h.views.thread Q.producer).reads _ (fun j hj _ hjn => ?_)
      exact Ring.mod_ne_of_lt hjn (by omega)
    · rw [h.reader _ u hu]
      exact Nat.zero_le _

/-- **The read of a `try_pop` does not race.** -/
theorem Inv.mayRead (h : Q.Inv c M pushed popped)
    (hitem : popped.length < (M.view Q.consumer).seen Q.head) :
    M.MayRead Q.consumer (Q.slot (popped.length % c)) := by
  intro u
  by_cases hu : u = Q.producer
  · -- what was written in this slot was written before the head that the consumer has seen
    rw [hu]
    refine (h.views.thread Q.consumer).writes _ (fun j hj hjn => ?_)
    have hfree := h.free
    exact (Ring.mod_ne_of_lt (hitem.trans_le hj) (by omega)).symm
  · rw [h.writer _ u hu]
    exact Nat.zero_le _

section Steps

variable [DecidableEq τ] [DecidableEq ℓ] [DecidableEq ρ]

omit [DecidableEq ℓ] in
/-- The cells of the slots after an access to one of them. -/
theorem cell_access {t : τ} {a : ℕ} {cell : SharedMemory.Cell τ α} (i : ℕ) :
    (M.access t (Q.slot a) cell).cell (Q.slot i) = if i = a then cell else M.cell (Q.slot i) := by
  show Function.update M.cell (Q.slot a) cell (Q.slot i) = _
  rw [Function.update_apply]
  simp only [Q.slot_injective.eq_iff]

namespace Inv

variable (h : Q.Inv c M pushed popped)
include h

omit [DecidableEq ρ] in
/-- **The producer loads its own index**: it has seen all messages there and gets the last. -/
theorem loadHead {i v : ℕ} (hload : M.loadRelaxed Q.producer Q.head i = some (v, M')) :
    M' = M ∧ v = pushed.length % c := by
  obtain ⟨msg, hmsg, hseen, rfl, rfl⟩ := SharedMemory.loadRelaxed_eq_some hload
  obtain ⟨hvalue, hle⟩ := h.head_value hmsg
  have hown := h.seen_head_le.thread Q.producer
  have hpublished := h.published
  obtain rfl : i = (M.view Q.producer).seen Q.head := by omega
  rw [View.see_seen, SharedMemory.setView_self]
  refine ⟨rfl, ?_⟩
  rw [hvalue, show (M.view Q.producer).seen Q.head = pushed.length by omega]

omit [DecidableEq ρ] in
/-- **The consumer loads its own index.** -/
theorem loadTail {i v : ℕ} (hload : M.loadRelaxed Q.consumer Q.tail i = some (v, M')) :
    M' = M ∧ v = popped.length % c := by
  obtain ⟨msg, hmsg, hseen, rfl, rfl⟩ := SharedMemory.loadRelaxed_eq_some hload
  obtain ⟨hvalue, hle⟩ := h.tail_value hmsg
  have hown := h.seen_tail_le.thread Q.consumer
  have hreturned := h.returned
  obtain rfl : i = (M.view Q.consumer).seen Q.tail := by omega
  rw [View.see_seen, SharedMemory.setView_self]
  refine ⟨rfl, ?_⟩
  rw [hvalue, show (M.view Q.consumer).seen Q.tail = popped.length by omega]

omit [DecidableEq ℓ] in
/-- An access to a slot, after which it is this cell. -/
theorem access {t : τ} {a : ℕ} {cell : SharedMemory.Cell τ α}
    (hsound : (M.access t (Q.slot a) cell).Sound)
    (hholds : Ring.Holds c (Function.update (fun i => (M.cell (Q.slot i)).value) a cell.value)
      pushed popped.length)
    (hwriter : ∀ u, u ≠ Q.producer → cell.writes u = 0)
    (hreader : ∀ u, u ≠ Q.consumer → cell.reads u = 0)
    (hknows : ∀ V : View τ ℓ, V.seen Q.head ≤ pushed.length → V.seen Q.tail ≤ popped.length →
      Knows Q c (Q.writeClock M) (Q.readClock M) pushed.length popped.length V →
      Knows Q c (Function.update (Q.writeClock M) a (cell.writes Q.producer))
        (Function.update (Q.readClock M) a (cell.reads Q.consumer)) pushed.length popped.length V) :
    Q.Inv c (M.access t (Q.slot a) cell) pushed popped where
  sound := hsound
  heads := h.heads
  tails := h.tails
  published := h.published.trans_eq (SharedMemory.seen_access _ _).symm
  returned := h.returned.trans_eq (SharedMemory.seen_access _ _).symm
  room := h.room.trans_eq (congrArg (· + c) (SharedMemory.seen_access _ _).symm)
  items := h.items.trans_eq (SharedMemory.seen_access _ _).symm
  fifo := h.fifo
  holds := by
    have hvalues : (fun i => ((M.access t (Q.slot a) cell).cell (Q.slot i)).value)
        = Function.update (fun i => (M.cell (Q.slot i)).value) a cell.value := by
      funext i
      rw [cell_access, Function.update_apply]
      split <;> rfl
    rw [hvalues]
    exact hholds
  writer i u hu := by
    rw [cell_access]
    split
    · exact hwriter u hu
    · exact h.writer i u hu
  reader i u hu := by
    rw [cell_access]
    split
    · exact hreader u hu
    · exact h.reader i u hu
  views := by
    have hwrites : Q.writeClock (M.access t (Q.slot a) cell)
        = Function.update (Q.writeClock M) a (cell.writes Q.producer) := by
      funext i
      rw [writeClock, cell_access, Function.update_apply]
      split <;> rfl
    have hreads : Q.readClock (M.access t (Q.slot a) cell)
        = Function.update (Q.readClock M) a (cell.reads Q.consumer) := by
      funext i
      rw [readClock, cell_access, Function.update_apply]
      split <;> rfl
    rw [hwrites, hreads]
    have hnew : M.Everywhere (Knows Q c
        (Function.update (Q.writeClock M) a (cell.writes Q.producer))
        (Function.update (Q.readClock M) a (cell.reads Q.consumer)) pushed.length
        popped.length) :=
      ⟨fun u => hknows _ (h.seen_head_le.thread u) (h.seen_tail_le.thread u) (h.views.thread u),
        fun l msg hmsg => hknows _ (h.seen_head_le.message l msg hmsg)
          (h.seen_tail_le.message l msg hmsg) (h.views.message l msg hmsg)⟩
    exact hnew.access ((hnew.thread t).tick t)

omit [DecidableEq ℓ] in
/-- **A `try_push` writes its slot.** -/
theorem writeSlot (item : α) :
    Q.Inv c (M.write Q.producer (Q.slot (pushed.length % c)) item) pushed popped := by
  refine h.access h.sound.write (h.holds.write h.free item)
    (fun u hu => (Function.update_of_ne hu _ _).trans (h.writer _ u hu)) (h.reader _)
    (fun V hhead _ hV => ?_)
  have hsame : Function.update (Q.readClock M) (pushed.length % c)
      (Q.readClock M (pushed.length % c)) = Q.readClock M := Function.update_eq_self _ _
  show Knows Q c _ (Function.update _ _ (Q.readClock M (pushed.length % c))) _ _ V
  rw [hsame]
  exact hV.writeSlot hhead _

omit [DecidableEq ℓ] in
/-- **A `try_pop` reads its slot.** -/
theorem readSlot (hlt : popped.length < pushed.length) :
    Q.Inv c (M.read Q.consumer (Q.slot (popped.length % c))).2 pushed popped := by
  refine h.access h.sound.read ?_ (h.writer _)
    (fun u hu => (Function.update_of_ne hu _ _).trans (h.reader _ u hu)) (fun V _ htail hV => ?_)
  · show Ring.Holds c (Function.update _ _ ((fun i => (M.cell (Q.slot i)).value) _)) _ _
    rw [Function.update_eq_self]
    exact h.holds
  · show Knows Q c (Function.update _ _ (Q.writeClock M (popped.length % c))) _ _ _ V
    rw [Function.update_eq_self]
    exact hV.readSlot htail hlt _

omit [DecidableEq ρ] in
/-- **A `try_push` stores the head.** -/
theorem storeHead {item : α}
    (hroom : pushed.length + 1 < (M.view Q.producer).seen Q.tail + c)
    (hvalue : (M.cell (Q.slot (pushed.length % c))).value = item) :
    Q.Inv c (M.storeRelease Q.producer Q.head ((pushed.length + 1) % c)) (pushed ++ [item])
      popped := by
  have hlength : (pushed ++ [item]).length = pushed.length + 1 := List.length_append
  have hknows : Knows Q c (Q.writeClock M) (Q.readClock M) (pushed.length + 1) popped.length
      ((M.view Q.producer).see Q.head (M.messages Q.head).length) := by
    refine ⟨fun i _ => h.sound.writes _ _, fun i hi => ?_⟩
    rw [View.seen_see, Function.update_of_ne Q.indices_ne.symm] at hi
    exact (h.views.thread Q.producer).push.reads i hi
  refine ⟨h.sound.append (h.sound.seen.thread _), ?_, ?_, ?_, ?_, ?_, ?_, ?_, ?_, h.writer,
    h.reader, ?_⟩
  · rw [SharedMemory.storeRelease, SharedMemory.append_messages_self, List.map_append, h.heads,
      hlength, List.range_succ (n := pushed.length + 1), List.map_append]
    rfl
  · rw [SharedMemory.storeRelease, SharedMemory.append_messages_of_ne Q.indices_ne.symm]
    exact h.tails
  · rw [hlength, SharedMemory.storeRelease, SharedMemory.append_view, Function.update_self,
      View.seen_see, Function.update_self, h.length_heads]
  · exact h.returned.trans (h.sound.seen_le_append _ _)
  · rw [hlength]
    exact hroom.trans_le (Nat.add_le_add_right (h.sound.seen_le_append _ _) c)
  · exact h.items.trans (h.sound.seen_le_append _ _)
  · exact h.fifo.trans (List.prefix_append _ _)
  · exact h.holds.snoc hvalue
  · rw [hlength]
    exact (h.views.mono (fun V hV => hV.push)).append hknows hknows

omit [DecidableEq ρ] in
/-- **A `try_pop` stores the tail.** -/
theorem storeTail {item : α} (hitem : popped.length < (M.view Q.consumer).seen Q.head)
    (hget : pushed[popped.length]? = some item) :
    Q.Inv c (M.storeRelease Q.consumer Q.tail ((popped.length + 1) % c)) pushed
      (popped ++ [item]) := by
  have hlength : (popped ++ [item]).length = popped.length + 1 := List.length_append
  have hknows : Knows Q c (Q.writeClock M) (Q.readClock M) pushed.length (popped.length + 1)
      ((M.view Q.consumer).see Q.tail (M.messages Q.tail).length) := by
    refine ⟨fun i hi => ?_, fun i _ => h.sound.reads _ _⟩
    rw [View.seen_see, Function.update_of_ne Q.indices_ne] at hi
    exact (h.views.thread Q.consumer).writes i hi
  refine ⟨h.sound.append (h.sound.seen.thread _), ?_, ?_, ?_, ?_, ?_, ?_, ?_, ?_, h.writer,
    h.reader, ?_⟩
  · rw [SharedMemory.storeRelease, SharedMemory.append_messages_of_ne Q.indices_ne]
    exact h.heads
  · rw [SharedMemory.storeRelease, SharedMemory.append_messages_self, List.map_append, h.tails,
      hlength, List.range_succ (n := popped.length + 1), List.map_append]
    rfl
  · exact h.published.trans (h.sound.seen_le_append _ _)
  · rw [hlength, SharedMemory.storeRelease, SharedMemory.append_view, Function.update_self,
      View.seen_see, Function.update_self, h.length_tails]
  · exact h.room.trans_le (Nat.add_le_add_right (h.sound.seen_le_append _ _) c)
  · rw [hlength]
    exact (Nat.succ_le_of_lt hitem).trans (h.sound.seen_le_append _ _)
  · -- the item taken is the first of those not taken before
    obtain ⟨rest, rfl⟩ := h.fifo
    rw [List.getElem?_append_right (le_refl _), Nat.sub_self] at hget
    cases rest with
    | nil => cases hget
    | cons y rest =>
      cases hget
      exact ⟨rest, by simp⟩
  · rw [hlength]
    exact h.holds.shrink (Nat.le_succ _)
  · rw [hlength]
    exact (h.views.mono (fun V hV => hV.pop)).append hknows hknows

end Inv

variable {k i : ℕ}

/-- **Each access of `try_push` keeps the invariant** and what the call knows, with the item it
publishes added to those pushed; and the call fails only where the tail it gets, after `i` items,
is a turn behind. -/
theorem tryPush_spec {pc : Push α} {out : Push α ⊕ Bool} (h : Q.Inv (2 ^ k) M pushed popped)
    (hpc : Q.PushOk (2 ^ k) M pushed pc) (hstep : Q.tryPush (2 ^ k) M i pc = some (M', out)) :
    Q.Inv (2 ^ k) M' (pushed ++ pc.published) popped
      ∧ (∀ pc', out = .inl pc' → Q.PushOk (2 ^ k) M' (pushed ++ pc.published) pc')
      ∧ (out = .inr false → i ≤ popped.length ∧ pushed.length + 1 = i + 2 ^ k) := by
  cases pc with
  | loadHead item =>
    obtain ⟨⟨v, M₁⟩, hload, heq⟩ := Option.map_eq_some_iff.mp hstep
    cases heq
    obtain ⟨rfl, rfl⟩ := h.loadHead hload
    rw [Push.published, List.append_nil]
    refine ⟨h, ?_, by simp⟩
    rintro pc' ⟨⟩
    exact rfl
  | loadTail item head =>
    have hhead : head = pushed.length % 2 ^ k := hpc
    obtain ⟨⟨v, M₁⟩, hload, heq⟩ := Option.map_eq_some_iff.mp hstep
    cases heq
    obtain ⟨msg, hmsg, hseen, rfl, rfl⟩ := SharedMemory.loadAcquire_eq_some hload
    obtain ⟨hvalue, hle⟩ := h.tail_value hmsg
    have hroom := h.room
    have hfifo := h.fifo.length_le
    dsimp only
    rw [Push.published, List.append_nil, hvalue, hhead, next_mod]
    refine ⟨h.load (SharedMemory.op_loadAcquire hload), ?_, ?_⟩
    · intro pc' hpc'
      split at hpc'
      · cases hpc'
      · rename_i hne
        cases hpc'
        refine ⟨rfl, ?_⟩
        rw [SharedMemory.setView_view, Function.update_self, View.seen_sup, h.sound.own _ _ _ hmsg,
          max_eq_right hseen]
        have hnot : pushed.length + 1 ≠ i + 2 ^ k := fun heq => hne (by
          rw [heq, Nat.add_mod_right])
        omega
    · intro hfalse
      split at hfalse
      · rename_i heq
        obtain hsame | hturn := Ring.eq_or_eq_add_of_mod_eq (c := 2 ^ k)
          (show i ≤ pushed.length + 1 by omega) (by omega) heq.symm
        · omega
        · exact ⟨hle, hturn⟩
      · cases hfalse
  | writeSlot item head =>
    obtain ⟨rfl, hroom⟩ := hpc
    cases hstep
    rw [Push.published, List.append_nil]
    refine ⟨h.writeSlot item, ?_, by simp⟩
    rintro pc' ⟨⟩
    refine ⟨rfl, hroom.trans_eq (congrArg (· + 2 ^ k) (SharedMemory.seen_access _ _).symm), ?_⟩
    rw [SharedMemory.write, cell_access, if_pos rfl]
  | storeHead item head =>
    obtain ⟨rfl, hroom, hvalue⟩ := hpc
    cases hstep
    rw [next_mod]
    exact ⟨h.storeHead hroom hvalue, by simp, by simp⟩

/-- **Each access of `try_pop` keeps the invariant** and what the call knows, with the item it
takes added to those popped; and the call fails only where the head it gets is the one after the
items popped. -/
theorem tryPop_spec {pc : Pop α} {out : Pop α ⊕ Option α} (h : Q.Inv (2 ^ k) M pushed popped)
    (hpc : Q.PopOk (2 ^ k) M pushed popped pc)
    (hstep : Q.tryPop (2 ^ k) M i pc = some (M', out)) :
    Q.Inv (2 ^ k) M' pushed (popped ++ pc.taken)
      ∧ (∀ pc', out = .inl pc' → Q.PopOk (2 ^ k) M' pushed (popped ++ pc.taken) pc')
      ∧ (out = .inr none → i = popped.length ∧ (M.view Q.consumer).seen Q.head ≤ i) := by
  cases pc with
  | loadTail =>
    obtain ⟨⟨v, M₁⟩, hload, heq⟩ := Option.map_eq_some_iff.mp hstep
    cases heq
    obtain ⟨rfl, rfl⟩ := h.loadTail hload
    rw [Pop.taken, List.append_nil]
    refine ⟨h, ?_, by simp⟩
    rintro pc' ⟨⟩
    exact rfl
  | loadHead tail =>
    have htail : tail = popped.length % 2 ^ k := hpc
    obtain ⟨⟨v, M₁⟩, hload, heq⟩ := Option.map_eq_some_iff.mp hstep
    cases heq
    obtain ⟨msg, hmsg, hseen, rfl, rfl⟩ := SharedMemory.loadAcquire_eq_some hload
    obtain ⟨hvalue, hle⟩ := h.head_value hmsg
    have hitems := h.items
    have hfree := h.free
    dsimp only
    rw [Pop.taken, List.append_nil, hvalue, htail]
    refine ⟨h.load (SharedMemory.op_loadAcquire hload), ?_, ?_⟩
    · intro pc' hpc'
      split at hpc'
      · cases hpc'
      · rename_i hne
        cases hpc'
        refine ⟨rfl, ?_⟩
        rw [SharedMemory.setView_view, Function.update_self, View.seen_sup, h.sound.own _ _ _ hmsg,
          max_eq_right hseen]
        have hnot : popped.length ≠ i := fun heq => hne (by rw [heq])
        omega
    · intro hnone
      split at hnone
      · rename_i heq
        obtain hsame | hturn := Ring.eq_or_eq_add_of_mod_eq (c := 2 ^ k)
          (show popped.length ≤ i by omega) (by omega) heq
        · exact ⟨hsame, hseen⟩
        · omega
      · cases hnone
  | readSlot tail =>
    obtain ⟨rfl, hitem⟩ := hpc
    have hlt : popped.length < pushed.length :=
      hitem.trans_le (h.seen_head_le.thread Q.consumer)
    have hget : pushed[popped.length]? = some pushed[popped.length] :=
      List.getElem?_eq_getElem hlt
    cases hstep
    rw [Pop.taken, List.append_nil]
    refine ⟨h.readSlot hlt, ?_, by simp⟩
    rintro pc' ⟨⟩
    refine ⟨rfl, hitem.trans_eq (SharedMemory.seen_access _ _).symm, ?_⟩
    rw [hget]
    exact congrArg some (h.holds.read hget).symm
  | storeTail tail item =>
    obtain ⟨rfl, hitem, hget⟩ := hpc
    cases hstep
    rw [next_mod]
    exact ⟨h.storeTail hitem hget, by simp, by simp⟩

/-! ## What else an access may change -/

/-- **What an access of a call does to the memory**: it is an operation on a slot or one that
changes no location, or it stores its index and so publishes an item or gives it back. -/
inductive Effect (Q : Site τ ℓ ρ) (M : SharedMemory τ ℓ ℕ ρ α) (t : τ) (l : ℓ) :
    List α → SharedMemory τ ℓ ℕ ρ α → Prop where
  | load {M' : SharedMemory τ ℓ ℕ ρ α} (hop : M.Op t none M') : Q.Effect M t l [] M'
  | access {M' : SharedMemory τ ℓ ℕ ρ α} {a : ℕ} (hop : M.Op t (some (.inr (Q.slot a))) M') :
      Q.Effect M t l [] M'
  | store (v : ℕ) (item : α) : Q.Effect M t l [item] (M.storeRelease t l v)

theorem tryPush_effect {pc : Push α} {out : Push α ⊕ Bool} (h : Q.Inv (2 ^ k) M pushed popped)
    (hstep : Q.tryPush (2 ^ k) M i pc = some (M', out)) :
    Q.Effect M Q.producer Q.head pc.published M' := by
  cases pc with
  | loadHead item =>
    obtain ⟨⟨v, M₁⟩, hload, heq⟩ := Option.map_eq_some_iff.mp hstep
    cases heq
    obtain ⟨rfl, -⟩ := h.loadHead hload
    exact .load .refl
  | loadTail item head =>
    obtain ⟨⟨v, M₁⟩, hload, heq⟩ := Option.map_eq_some_iff.mp hstep
    cases heq
    exact .load (SharedMemory.op_loadAcquire hload)
  | writeSlot item head =>
    cases hstep
    exact .access (.write _ _)
  | storeHead item head =>
    cases hstep
    exact .store _ _

theorem tryPop_effect {pc : Pop α} {out : Pop α ⊕ Option α} (h : Q.Inv (2 ^ k) M pushed popped)
    (hstep : Q.tryPop (2 ^ k) M i pc = some (M', out)) :
    Q.Effect M Q.consumer Q.tail pc.taken M' := by
  cases pc with
  | loadTail =>
    obtain ⟨⟨v, M₁⟩, hload, heq⟩ := Option.map_eq_some_iff.mp hstep
    cases heq
    obtain ⟨rfl, -⟩ := h.loadTail hload
    exact .load .refl
  | loadHead tail =>
    obtain ⟨⟨v, M₁⟩, hload, heq⟩ := Option.map_eq_some_iff.mp hstep
    cases heq
    exact .load (SharedMemory.op_loadAcquire hload)
  | readSlot tail =>
    cases hstep
    exact .access (.read _)
  | storeTail tail item =>
    cases hstep
    exact .store _ _

/-- **What a call of `try_push` publishes**: nothing until it returns `true`, and then its item. -/
theorem tryPush_published {pc : Push α} {out : Push α ⊕ Bool}
    (hstep : Q.tryPush c M i pc = some (M', out)) :
    (∀ pc', out = .inl pc' → pc.published = [] ∧ pc'.item = pc.item)
      ∧ (out = .inr false → pc.published = [])
      ∧ (out = .inr true → pc.published = [pc.item]) := by
  cases pc with
  | loadHead item =>
    obtain ⟨r, -, heq⟩ := Option.map_eq_some_iff.mp hstep
    cases heq
    simp [Push.published, Push.item]
  | loadTail item head =>
    obtain ⟨r, -, heq⟩ := Option.map_eq_some_iff.mp hstep
    cases heq
    split <;> simp [Push.published, Push.item]
  | writeSlot item head =>
    cases hstep
    simp [Push.published, Push.item]
  | storeHead item head =>
    cases hstep
    simp [Push.published, Push.item]

/-- **What a call of `try_pop` takes**: nothing until it returns an item, and then that one. -/
theorem tryPop_taken {pc : Pop α} {out : Pop α ⊕ Option α}
    (hstep : Q.tryPop c M i pc = some (M', out)) :
    (∀ pc', out = .inl pc' → pc.taken = [])
      ∧ (out = .inr none → pc.taken = [])
      ∧ (∀ item, out = .inr (some item) → pc.taken = [item]) := by
  cases pc with
  | loadTail =>
    obtain ⟨r, -, heq⟩ := Option.map_eq_some_iff.mp hstep
    cases heq
    simp [Pop.taken]
  | loadHead tail =>
    obtain ⟨r, -, heq⟩ := Option.map_eq_some_iff.mp hstep
    cases heq
    split <;> simp [Pop.taken]
  | readSlot tail =>
    cases hstep
    simp [Pop.taken]
  | storeTail tail item =>
    cases hstep
    simp [Pop.taken]

/-- A call of `try_pop` changes no value. -/
theorem tryPop_value {pc : Pop α} {out : Pop α ⊕ Option α}
    (hstep : Q.tryPop c M i pc = some (M', out)) (x : ρ) :
    (M'.cell x).value = (M.cell x).value := by
  cases pc with
  | loadTail =>
    obtain ⟨⟨v, M₁⟩, hload, heq⟩ := Option.map_eq_some_iff.mp hstep
    cases heq
    obtain ⟨_, _, _, _, rfl⟩ := SharedMemory.loadRelaxed_eq_some hload
    rfl
  | loadHead tail =>
    obtain ⟨⟨v, M₁⟩, hload, heq⟩ := Option.map_eq_some_iff.mp hstep
    cases heq
    obtain ⟨_, _, _, _, rfl⟩ := SharedMemory.loadAcquire_eq_some hload
    rfl
  | readSlot tail =>
    cases hstep
    exact SharedMemory.read_value x
  | storeTail tail item =>
    cases hstep
    rfl

/-- **An access takes no knowledge away.** -/
theorem Effect.seen_le {t : τ} {l : ℓ} {items : List α} (heffect : Q.Effect M t l items M')
    (h : M.Sound) (u : τ) (l' : ℓ) : (M.view u).seen l' ≤ (M'.view u).seen l' := by
  cases heffect with
  | load hop => exact hop.seen_le h u l'
  | access hop => exact hop.seen_le h u l'
  | store v item => exact h.seen_le_append u l'

/-- **An access to one queue does not disturb another.** -/
theorem Inv.effect {R : Site τ ℓ ρ} (h : R.Inv c M pushed popped) {t : τ} {l : ℓ} {items : List α}
    (heffect : Q.Effect M t l items M') (hhead : l ≠ R.head) (htail : l ≠ R.tail)
    (hslot : ∀ a b, Q.slot a ≠ R.slot b) : R.Inv c M' pushed popped := by
  cases heffect with
  | load hop => exact h.load hop
  | @access M' a hop =>
    refine h.op hop (by simp) (by simp) (fun b heq => hslot a b ?_)
    exact Sum.inr_injective (Option.some_injective _ heq)
  | store v item =>
    refine h.op SharedMemory.op_storeRelease (fun heq => hhead ?_) (fun heq => htail ?_)
      (by simp)
    · exact Sum.inl_injective (Option.some_injective _ heq)
    · exact Sum.inl_injective (Option.some_injective _ heq)

end Steps

end Site

/-! ## Runs -/

/-- The two threads of the queue. -/
inductive Side where
  | producer
  | consumer
  deriving DecidableEq, Repr

/-- The atomic locations of the queue. -/
inductive Index where
  | head
  | tail
  deriving DecidableEq, Repr

/-- A memory with nothing in it but the queue. -/
def site : Site Side Index ℕ :=
  ⟨.producer, .consumer, .head, .tail, id, nofun, Function.injective_id⟩

/-- **The queue and its two sides**, which share a memory with release and acquire. -/
structure SharedState (α : Type) where
  memory : SharedMemory Side Index ℕ ℕ α
  /-- The producer's call of `try_push`, where it is inside one. -/
  producer : Option (Push α)
  /-- The consumer's call of `try_pop`, where it is inside one. -/
  consumer : Option (Pop α)
  /-- The items accepted by calls of `try_push`, in order. -/
  pushed : List α
  /-- The items returned by calls of `try_pop`, in order. -/
  popped : List α

/-- **Who moves**, and which message a load gets. -/
inductive SharedAction (α : Type) where
  | callPush (item : α)
  | push (i : ℕ)
  | callPop
  | pop (i : ℕ)
  deriving DecidableEq, Repr

variable {α : Type}

/-- **One step of either side.** -/
def sharedStep (capacity : ℕ) (s : SharedState α) : SharedAction α → Option (SharedState α)
  | .callPush item =>
    match s.producer with
    | none => some { s with producer := some (.loadHead item) }
    | some _ => none
  | .push i =>
    match s.producer with
    | none => none
    | some pc => (site.tryPush capacity s.memory i pc).map (fun r =>
      { s with memory := r.1, producer := r.2.getLeft?, pushed := s.pushed ++ pc.published })
  | .callPop =>
    match s.consumer with
    | none => some { s with consumer := some .loadTail }
    | some _ => none
  | .pop i =>
    match s.consumer with
    | none => none
    | some pc => (site.tryPop capacity s.memory i pc).map (fun r =>
      { s with memory := r.1, consumer := r.2.getLeft?, popped := s.popped ++ pc.taken })

/-- The queue as constructed, before either side uses it. -/
def sharedMachine (capacity : ℕ) (buffer : ℕ → α) :
    Machine (SharedState α) (SharedAction α) where
  init := ⟨.new (fun _ => 0) buffer, none, none, [], []⟩
  step := sharedStep capacity

/-- The memory and both calls are as the invariant of the queue says. -/
structure SharedState.Ok (k : ℕ) (s : SharedState α) : Prop where
  inv : site.Inv (2 ^ k) s.memory s.pushed s.popped
  producer : ∀ pc, s.producer = some pc → site.PushOk (2 ^ k) s.memory s.pushed pc
  consumer : ∀ pc, s.consumer = some pc → site.PopOk (2 ^ k) s.memory s.pushed s.popped pc

/-- The queue that nobody has used. -/
theorem Site.inv_new {τ ℓ ρ : Type} (Q : Site τ ℓ ρ) {c : ℕ} (hc : 0 < c) (atomic : ℓ → ℕ)
    (hhead : atomic Q.head = 0) (htail : atomic Q.tail = 0) (plain : ρ → α) :
    Q.Inv c (.new atomic plain) [] [] where
  sound := SharedMemory.sound_new
  heads := by simp [SharedMemory.new, hhead]
  tails := by simp [SharedMemory.new, htail]
  published := Nat.zero_le _
  returned := Nat.zero_le _
  room := Nat.lt_add_left _ hc
  items := Nat.zero_le _
  fifo := List.prefix_rfl
  holds i x _ hx := by simp at hx
  writer _ _ _ := rfl
  reader _ _ _ := rfl
  views := SharedMemory.everywhere_new ⟨fun _ _ => le_refl _, fun _ _ => le_refl _⟩

variable {k : ℕ} {s s' : SharedState α} {buffer : ℕ → α}

theorem SharedState.Ok.step {a : SharedAction α} (h : s.Ok k)
    (hstep : sharedStep (2 ^ k) s a = some s') : s'.Ok k := by
  cases a with
  | callPush item =>
    rw [sharedStep] at hstep
    split at hstep
    · cases hstep
      refine ⟨h.inv, ?_, h.consumer⟩
      rintro pc ⟨⟩
      trivial
    · cases hstep
  | push i =>
    rw [sharedStep] at hstep
    split at hstep
    · cases hstep
    · rename_i pc hpc
      obtain ⟨⟨M', out⟩, haccess, rfl⟩ := Option.map_eq_some_iff.mp hstep
      obtain ⟨hinv, hout, -⟩ := Site.tryPush_spec h.inv (h.producer pc hpc) haccess
      refine ⟨hinv, fun pc' hpc' => ?_, fun pc' hpc' => ?_⟩
      · exact hout pc' (Sum.getLeft?_eq_some_iff.mp hpc')
      · have heffect := Site.tryPush_effect h.inv haccess
        exact ((h.consumer pc' hpc').mono (heffect.seen_le h.inv.sound _ _)).append _
  | callPop =>
    rw [sharedStep] at hstep
    split at hstep
    · cases hstep
      refine ⟨h.inv, h.producer, ?_⟩
      rintro pc ⟨⟩
      trivial
    · cases hstep
  | pop i =>
    rw [sharedStep] at hstep
    split at hstep
    · cases hstep
    · rename_i pc hpc
      obtain ⟨⟨M', out⟩, haccess, rfl⟩ := Option.map_eq_some_iff.mp hstep
      obtain ⟨hinv, hout, -⟩ := Site.tryPop_spec h.inv (h.consumer pc hpc) haccess
      have heffect := Site.tryPop_effect h.inv haccess
      refine ⟨hinv, fun pc' hpc' => ?_, fun pc' hpc' => ?_⟩
      · exact (h.producer pc' hpc').mono (heffect.seen_le h.inv.sound _ _)
          (fun _ => Site.tryPop_value haccess _)
      · exact hout pc' (Sum.getLeft?_eq_some_iff.mp hpc')

/-- **Every state of every run is as the invariant says.** -/
theorem SharedState.ok_of_reachable (h : (sharedMachine (2 ^ k) buffer).Reachable s) : s.Ok k := by
  refine h.invariant ⟨site.inv_new (Nat.two_pow_pos k) _ rfl rfl buffer, ?_, ?_⟩
    (fun _ _ _ _ hs _ hstep => hs.step hstep)
  · rintro pc ⟨⟩
  · rintro pc ⟨⟩

/-! ## What the queue promises -/

/-- **The queue needs no stronger orders than it asks for**, for every capacity that is a power of
two, whatever the loads get: what is popped is, in order, the first of what was pushed, and at most
all slots but one are in use; the write of a `try_push` and the read of a `try_pop` do not race,
and the read gets the item that is next; a `try_push` fails only where the tail that it gets was
stored when `i` items were popped and the `pushed.length - i` others fill all slots but one, and a
`try_pop` only where the head that it gets was stored before the next item was pushed. -/
theorem queue_raceFree (k : ℕ) (buffer : ℕ → α) {s : SharedState α}
    (h : (sharedMachine (2 ^ k) buffer).Reachable s) :
    (s.popped <+: s.pushed ∧ s.pushed.length ≤ s.popped.length + (2 ^ k - 1))
      ∧ (∀ item head, s.producer = some (.writeSlot item head) →
        s.memory.MayWrite .producer head)
      ∧ (∀ tail, s.consumer = some (.readSlot tail) → s.memory.MayRead .consumer tail
        ∧ s.pushed[s.popped.length]? = some (s.memory.cell tail).value)
      ∧ (∀ pc i M, s.producer = some pc →
        site.tryPush (2 ^ k) s.memory i pc = some (M, .inr false) →
        i ≤ s.popped.length ∧ s.pushed.length = i + (2 ^ k - 1))
      ∧ (∀ pc i M, s.consumer = some pc →
        site.tryPop (2 ^ k) s.memory i pc = some (M, .inr none) → i = s.popped.length) := by
  have hok := SharedState.ok_of_reachable h
  have hfree := hok.inv.free
  have hpos := Nat.two_pow_pos k
  refine ⟨⟨hok.inv.fifo, by omega⟩, ?_, ?_, ?_, ?_⟩
  · intro item head hpc
    obtain ⟨rfl, hroom⟩ := hok.producer _ hpc
    exact hok.inv.mayWrite hroom
  · intro tail hpc
    obtain ⟨rfl, hitem⟩ := hok.consumer _ hpc
    have hlt := hitem.trans_le (hok.inv.seen_head_le.thread site.consumer)
    have hget := List.getElem?_eq_getElem hlt
    refine ⟨hok.inv.mayRead hitem, ?_⟩
    rw [hget]
    exact congrArg some (hok.inv.holds.read hget).symm
  · intro pc i M hpc hstep
    obtain ⟨-, -, hfull⟩ := Site.tryPush_spec hok.inv (hok.producer pc hpc) hstep
    obtain ⟨hle, hcount⟩ := hfull rfl
    omega
  · intro pc i M hpc hstep
    obtain ⟨-, -, hempty⟩ := Site.tryPop_spec hok.inv (hok.consumer pc hpc) hstep
    exact (hempty rfl).1

/-- A schedule on a ring of two slots: one item goes in, a `try_pop` gets the first message of the
head and finds the queue empty, and the next gets the second. -/
def staleSchedule : List (SharedAction ℕ) :=
  [.callPush 5, .push 0, .push 0, .push 0, .push 0, .callPop, .pop 0, .pop 0, .callPop, .pop 0,
    .pop 1, .callPush 6, .push 1]

/-- The promises where that schedule ends: the consumer is about to read the item without a race,
and a `try_push` is about to fail. -/
theorem queue_raceFree_stale :
    ∃ s : SharedState ℕ, (sharedMachine (2 ^ 1) (fun _ => 0)).Reachable s
      ∧ s.pushed = [5] ∧ s.popped = [] ∧ s.producer = some (.loadTail 6 1)
      ∧ s.consumer = some (.readSlot 0) ∧ s.memory.MayRead .consumer 0
      ∧ s.pushed[s.popped.length]? = some (s.memory.cell 0).value := by
  obtain ⟨s, hrun⟩ : ∃ s, (sharedMachine (2 ^ 1) (fun _ => (0 : ℕ))).run
      (sharedMachine (2 ^ 1) (fun _ => 0)).init staleSchedule = some s := ⟨_, rfl⟩
  have hreach := Machine.ReachableBy.run (L := fun _ => True) Machine.ReachableBy.init
    (fun _ _ => trivial) hrun
  obtain ⟨-, -, hread, -, -⟩ := queue_raceFree 1 (fun _ => 0) hreach
  cases hrun
  exact ⟨_, hreach, rfl, rfl, rfl, rfl, hread 0 rfl⟩

end SpscQueue
