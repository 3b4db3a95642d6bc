import Mathlib.Data.List.Infix
import Mathlib.Logic.Function.Basic
import Mathlib.Order.Lattice
import Mathlib.Order.Lattice.Nat

/-!
# Memory that is shared with release and acquire

An atomic location holds more than its last value: a thread that loads it may get any of the
values stored there, as long as it is none older than one the thread has come across. The stored
values of a location are its *messages*, in modification order. What a thread has come across is
its *view*: for each atomic location the newest message it has seen, and for each thread how many
of that thread's plain accesses happen before what it does next – a vector clock. A release store
hands the view of the thread on with the message, and an acquire load takes the view of the
message over. A relaxed load takes the value alone.

Plain locations are not synchronized. Each remembers, for every thread, when it was last written
and last read by it. An access races if it is in conflict with an earlier one that does not happen
before it, so whether it races is a question about the view of the thread at the access
(`MayRead`, `MayWrite`).

A store is put at the end of the modification order. That is the order of the stores for locations
that one thread alone stores to, and for locations that change by read-modify-write operations
only; no others are used here.

What is invariant about the synchronization of a program is a property of views: that whoever has
seen so much of one location knows so much about others. Such a property passes from thread to
thread if it is kept when views are joined, and the operations keep it then wherever it is
(`Everywhere`).
-/

namespace SharedMemory

/-- **What a thread knows**: for each atomic location the newest message it has seen, and for
each thread how many of its plain accesses happen before. -/
def View (τ ℓ : Type) : Type := (ℓ → ℕ) × (τ → ℕ)

variable {τ ℓ ν ρ α : Type}

instance : SemilatticeSup (View τ ℓ) := inferInstanceAs (SemilatticeSup ((ℓ → ℕ) × (τ → ℕ)))

namespace View

/-- The newest message of a location that was seen. -/
def seen (V : View τ ℓ) : ℓ → ℕ := V.1

/-- How many accesses of a thread happen before. -/
def known (V : View τ ℓ) : τ → ℕ := V.2

/-- Nothing but the first messages, and no accesses. -/
def bot : View τ ℓ := (fun _ => 0, fun _ => 0)

variable [DecidableEq ℓ] [DecidableEq τ]

/-- A message of a location is seen. -/
def see (V : View τ ℓ) (l : ℓ) (i : ℕ) : View τ ℓ := (Function.update V.1 l i, V.2)

/-- A thread makes a plain access of its own. -/
def tick (V : View τ ℓ) (t : τ) : View τ ℓ := (V.1, Function.update V.2 t (V.2 t + 1))

omit [DecidableEq ℓ] [DecidableEq τ] in
@[simp] theorem seen_sup (V W : View τ ℓ) (l : ℓ) :
    (V ⊔ W).seen l = max (V.seen l) (W.seen l) := rfl

omit [DecidableEq ℓ] [DecidableEq τ] in
@[simp] theorem known_sup (V W : View τ ℓ) (t : τ) :
    (V ⊔ W).known t = max (V.known t) (W.known t) := rfl

omit [DecidableEq τ] in
@[simp] theorem seen_see (V : View τ ℓ) (l : ℓ) (i : ℕ) :
    (V.see l i).seen = Function.update V.seen l i := rfl

omit [DecidableEq τ] in
/-- Seeing again what was seen last. -/
theorem see_seen (V : View τ ℓ) (l : ℓ) : V.see l (V.seen l) = V :=
  Prod.ext (Function.update_eq_self l V.1) rfl

omit [DecidableEq ℓ] in
@[simp] theorem seen_tick (V : View τ ℓ) (t : τ) : (V.tick t).seen = V.seen := rfl

omit [DecidableEq ℓ] in
@[simp] theorem known_tick (V : View τ ℓ) (t : τ) :
    (V.tick t).known = Function.update V.known t (V.known t + 1) := rfl

omit [DecidableEq ℓ] in
theorem known_le_tick (V : View τ ℓ) (t u : τ) : V.known u ≤ (V.tick t).known u := by
  rw [known_tick, Function.update_apply]
  split
  · rename_i h
    rw [h]
    exact Nat.le_succ _
  · exact le_refl _

end View

/-- **A message**: the value stored, and the view that an acquire load of it takes over. -/
structure Message (τ ℓ ν : Type) where
  value : ν
  view : View τ ℓ

/-- **A plain location**: its value, and for each thread the clock of its last write and of its
last read. -/
structure Cell (τ α : Type) where
  value : α
  writes : τ → ℕ
  reads : τ → ℕ

end SharedMemory

/-- **The memory, and what the threads know of it.** -/
structure SharedMemory (τ ℓ ν ρ α : Type) where
  /-- The messages of the atomic locations, in modification order. -/
  messages : ℓ → List (SharedMemory.Message τ ℓ ν)
  /-- The plain locations. -/
  cell : ρ → SharedMemory.Cell τ α
  /-- The views of the threads. -/
  view : τ → SharedMemory.View τ ℓ

namespace SharedMemory

variable {τ ℓ ν ρ α : Type}

/-- The memory before the threads start: one message in each atomic location, and nobody has
accessed a plain one. -/
def new (atomic : ℓ → ν) (plain : ρ → α) : SharedMemory τ ℓ ν ρ α :=
  ⟨fun l => [⟨atomic l, .bot⟩], fun x => ⟨plain x, fun _ => 0, fun _ => 0⟩, fun _ => .bot⟩

section Operations

variable [DecidableEq τ] [DecidableEq ℓ] [DecidableEq ρ]

/-- The view of a thread is replaced. -/
def setView (M : SharedMemory τ ℓ ν ρ α) (t : τ) (V : View τ ℓ) : SharedMemory τ ℓ ν ρ α :=
  { M with view := Function.update M.view t V }

/-- The message that a load finds at a place of the modification order: any but those older than
one the thread has seen. -/
def readable (M : SharedMemory τ ℓ ν ρ α) (t : τ) (l : ℓ) (i : ℕ) : Option (Message τ ℓ ν) :=
  if (M.view t).seen l ≤ i then (M.messages l)[i]? else none

/-- **A relaxed load**, of the `i`-th message. -/
def loadRelaxed (M : SharedMemory τ ℓ ν ρ α) (t : τ) (l : ℓ) (i : ℕ) :
    Option (ν × SharedMemory τ ℓ ν ρ α) :=
  (M.readable t l i).map (fun m => (m.value, M.setView t ((M.view t).see l i)))

/-- **An acquire load**, of the `i`-th message. The view of the message has seen the message. -/
def loadAcquire (M : SharedMemory τ ℓ ν ρ α) (t : τ) (l : ℓ) (i : ℕ) :
    Option (ν × SharedMemory τ ℓ ν ρ α) :=
  (M.readable t l i).map (fun m => (m.value, M.setView t (M.view t ⊔ m.view)))

/-- A message is put at the end of the modification order, with a view, and is seen by the thread
that stores it. -/
def append (M : SharedMemory τ ℓ ν ρ α) (t : τ) (l : ℓ) (v : ν) (V : View τ ℓ) :
    SharedMemory τ ℓ ν ρ α :=
  { M with
    messages := Function.update M.messages l
      (M.messages l ++ [⟨v, V.see l (M.messages l).length⟩])
    view := Function.update M.view t ((M.view t).see l (M.messages l).length) }

/-- **A release store.** -/
def storeRelease (M : SharedMemory τ ℓ ν ρ α) (t : τ) (l : ℓ) (v : ν) : SharedMemory τ ℓ ν ρ α :=
  M.append t l v (M.view t)

/-- **A relaxed read-modify-write.** It takes the last message, and whoever acquires the new one
takes over what came with that one too: the release sequence goes on. -/
def fetchRelaxed (M : SharedMemory τ ℓ ν ρ α) (t : τ) (l : ℓ) (f : ν → ν) :
    Option (ν × SharedMemory τ ℓ ν ρ α) :=
  (M.messages l).getLast?.map (fun m => (m.value, M.append t l (f m.value) m.view))

/-- **A release read-modify-write**, which adds the view of the thread. -/
def fetchRelease (M : SharedMemory τ ℓ ν ρ α) (t : τ) (l : ℓ) (f : ν → ν) :
    Option (ν × SharedMemory τ ℓ ν ρ α) :=
  (M.messages l).getLast?.map (fun m => (m.value, M.append t l (f m.value) (m.view ⊔ M.view t)))

/-- A thread accesses a plain location, which is then this. -/
def access (M : SharedMemory τ ℓ ν ρ α) (t : τ) (x : ρ) (c : Cell τ α) :
    SharedMemory τ ℓ ν ρ α :=
  { M with
    cell := Function.update M.cell x c
    view := Function.update M.view t ((M.view t).tick t) }

/-- **A plain read.** -/
def read (M : SharedMemory τ ℓ ν ρ α) (t : τ) (x : ρ) : α × SharedMemory τ ℓ ν ρ α :=
  ((M.cell x).value, M.access t x { M.cell x with
    reads := Function.update (M.cell x).reads t ((M.view t).known t + 1) })

/-- **A plain write.** -/
def write (M : SharedMemory τ ℓ ν ρ α) (t : τ) (x : ρ) (v : α) : SharedMemory τ ℓ ν ρ α :=
  M.access t x { M.cell x with
    value := v
    writes := Function.update (M.cell x).writes t ((M.view t).known t + 1) }

end Operations

/-- **A read of a plain location does not race**: the writes to it happen before. -/
def MayRead (M : SharedMemory τ ℓ ν ρ α) (t : τ) (x : ρ) : Prop :=
  ∀ u, (M.cell x).writes u ≤ (M.view t).known u

/-- **A write to a plain location does not race**: all accesses to it happen before. -/
def MayWrite (M : SharedMemory τ ℓ ν ρ α) (t : τ) (x : ρ) : Prop :=
  ∀ u, (M.cell x).writes u ≤ (M.view t).known u ∧ (M.cell x).reads u ≤ (M.view t).known u

/-! ## What the operations change -/

section Fields

variable {M : SharedMemory τ ℓ ν ρ α} {t u : τ} {l k : ℓ} {i : ℕ} {v : ν} {V : View τ ℓ}

variable [DecidableEq τ]

@[simp] theorem setView_view : (M.setView t V).view = Function.update M.view t V := rfl

theorem setView_self : M.setView t (M.view t) = M := by
  rw [setView, Function.update_eq_self]

variable [DecidableEq ℓ]

@[simp] theorem append_view :
    (M.append t l v V).view
      = Function.update M.view t ((M.view t).see l (M.messages l).length) := rfl

@[simp] theorem append_messages_self :
    (M.append t l v V).messages l
      = M.messages l ++ [⟨v, V.see l (M.messages l).length⟩] :=
  Function.update_self _ _ _

theorem append_messages_of_ne (hk : k ≠ l) : (M.append t l v V).messages k = M.messages k :=
  Function.update_of_ne hk _ _

theorem length_append_messages :
    (M.messages k).length ≤ ((M.append t l v V).messages k).length := by
  by_cases hk : k = l
  · subst hk
    rw [append_messages_self, List.length_append]
    exact Nat.le_add_right _ _
  · rw [append_messages_of_ne hk]

end Fields

section Loads

variable {M M' : SharedMemory τ ℓ ν ρ α} {t : τ} {l : ℓ} {i : ℕ} {v : ν}

theorem readable_eq_some {m : Message τ ℓ ν} :
    M.readable t l i = some m ↔ (M.view t).seen l ≤ i ∧ (M.messages l)[i]? = some m := by
  rw [readable, Option.ite_none_right_eq_some]

variable [DecidableEq τ]

/-- **What an acquire load does.** -/
theorem loadAcquire_eq_some (h : M.loadAcquire t l i = some (v, M')) :
    ∃ m, (M.messages l)[i]? = some m ∧ (M.view t).seen l ≤ i ∧ v = m.value
      ∧ M' = M.setView t (M.view t ⊔ m.view) := by
  obtain ⟨m, hm, heq⟩ := Option.map_eq_some_iff.mp h
  obtain ⟨hseen, hget⟩ := readable_eq_some.mp hm
  cases heq
  exact ⟨m, hget, hseen, rfl, rfl⟩

/-- **What a relaxed load does.** -/
theorem loadRelaxed_eq_some [DecidableEq ℓ] (h : M.loadRelaxed t l i = some (v, M')) :
    ∃ m, (M.messages l)[i]? = some m ∧ (M.view t).seen l ≤ i ∧ v = m.value
      ∧ M' = M.setView t ((M.view t).see l i) := by
  obtain ⟨m, hm, heq⟩ := Option.map_eq_some_iff.mp h
  obtain ⟨hseen, hget⟩ := readable_eq_some.mp hm
  cases heq
  exact ⟨m, hget, hseen, rfl, rfl⟩

end Loads

/-! ## What views say wherever they are -/

/-- **A property of all views**, those of the threads and those handed on with the messages. -/
structure Everywhere (M : SharedMemory τ ℓ ν ρ α) (P : View τ ℓ → Prop) : Prop where
  thread : ∀ t, P (M.view t)
  message : ∀ (l : ℓ) (m : Message τ ℓ ν), m ∈ M.messages l → P m.view

section Everywhere

variable {M : SharedMemory τ ℓ ν ρ α} {P Q : View τ ℓ → Prop} {t : τ} {l : ℓ} {v : ν}

/-- A view that can be had: that of a thread or of a message, or a join of such. -/
inductive Handed (M : SharedMemory τ ℓ ν ρ α) : View τ ℓ → Prop where
  | thread (t : τ) : M.Handed (M.view t)
  | message {l : ℓ} {m : Message τ ℓ ν} (hm : m ∈ M.messages l) : M.Handed m.view
  | sup {V W : View τ ℓ} (hV : M.Handed V) (hW : M.Handed W) : M.Handed (V ⊔ W)

theorem Everywhere.handed {V : View τ ℓ} (h : M.Everywhere P)
    (hsup : ∀ V W, P V → P W → P (V ⊔ W)) (hV : M.Handed V) : P V := by
  induction hV with
  | thread t => exact h.thread t
  | message hm => exact h.message _ _ hm
  | sup _ _ ihV ihW => exact hsup _ _ ihV ihW

theorem Everywhere.mono (h : M.Everywhere P) (hPQ : ∀ V, P V → Q V) : M.Everywhere Q :=
  ⟨fun t => hPQ _ (h.thread t), fun l m hm => hPQ _ (h.message l m hm)⟩

theorem everywhere_new {atomic : ℓ → ν} {plain : ρ → α} (h : P .bot) :
    (new atomic plain : SharedMemory τ ℓ ν ρ α).Everywhere P where
  thread _ := h
  message l m hm := by
    obtain rfl := List.mem_singleton.mp hm
    exact h

variable [DecidableEq τ]

theorem Everywhere.setView (h : M.Everywhere P) {V : View τ ℓ} (hV : P V) :
    (M.setView t V).Everywhere P where
  thread u := by
    rw [setView_view, Function.update_apply]
    split
    · exact hV
    · exact h.thread u
  message := h.message

theorem Everywhere.access [DecidableEq ρ] (h : M.Everywhere P) {x : ρ} {c : Cell τ α}
    (hV : P ((M.view t).tick t)) : (M.access t x c).Everywhere P :=
  ⟨(h.setView hV).thread, h.message⟩

theorem Everywhere.append [DecidableEq ℓ] (h : M.Everywhere P) {V : View τ ℓ}
    (hmessage : P (V.see l (M.messages l).length))
    (hthread : P ((M.view t).see l (M.messages l).length)) : (M.append t l v V).Everywhere P where
  thread := (h.setView hthread).thread
  message k m hm := by
    by_cases hk : k = l
    · subst hk
      rw [append_messages_self] at hm
      obtain hm | hm := List.mem_append.mp hm
      · exact h.message k m hm
      · obtain rfl := List.mem_singleton.mp hm
        exact hmessage
    · rw [append_messages_of_ne hk] at hm
      exact h.message k m hm

end Everywhere

/-! ## Sound memories -/

/-- **What holds of every memory**: nobody has seen a message that is not there, the view of a
message has seen this message and none newer, and a thread knows its own accesses. -/
structure Sound (M : SharedMemory τ ℓ ν ρ α) : Prop where
  seen : M.Everywhere (fun V => ∀ l, V.seen l < (M.messages l).length)
  own : ∀ (l : ℓ) (i : ℕ) (m : Message τ ℓ ν), (M.messages l)[i]? = some m → m.view.seen l = i
  writes : ∀ x t, (M.cell x).writes t ≤ (M.view t).known t
  reads : ∀ x t, (M.cell x).reads t ≤ (M.view t).known t

theorem sound_new {atomic : ℓ → ν} {plain : ρ → α} :
    (new atomic plain : SharedMemory τ ℓ ν ρ α).Sound where
  seen := everywhere_new (fun _ => Nat.zero_lt_one)
  own l i m hm := by
    rw [new, List.getElem?_singleton] at hm
    split at hm
    · rename_i hi
      cases hm
      exact hi.symm
    · cases hm
  writes _ _ := le_refl _
  reads _ _ := le_refl _

section Sound

variable {M : SharedMemory τ ℓ ν ρ α} {t : τ} {l : ℓ} {i : ℕ} {V : View τ ℓ}

variable [DecidableEq τ]

theorem known_le_update (hknown : (M.view t).known t ≤ V.known t) (u : τ) :
    (M.view u).known u ≤ (Function.update M.view t V u).known u := by
  rw [Function.update_apply]
  split
  · rename_i hu
    rw [hu]
    exact hknown
  · exact le_refl _

/-- A thread comes to know more. -/
theorem Sound.setView (h : M.Sound) (hseen : ∀ l, V.seen l < (M.messages l).length)
    (hknown : (M.view t).known t ≤ V.known t) : (M.setView t V).Sound where
  seen := h.seen.setView hseen
  own := h.own
  writes x u := (h.writes x u).trans (known_le_update hknown u)
  reads x u := (h.reads x u).trans (known_le_update hknown u)

omit [DecidableEq τ] in
/-- No view that can be had is ahead of the memory. -/
theorem Sound.handed (h : M.Sound) (hV : M.Handed V) (l : ℓ) : V.seen l < (M.messages l).length :=
  h.seen.handed (fun _ _ hV hW l => max_lt (hV l) (hW l)) hV l

/-- **A thread takes over a view.** -/
theorem Sound.join (h : M.Sound) (hV : M.Handed V) : (M.setView t (M.view t ⊔ V)).Sound :=
  h.setView (fun k => max_lt (h.seen.thread t k) (h.handed hV k)) (le_max_left _ _)

variable [DecidableEq ℓ]

/-- A view that is not ahead of the memory, with the message that is stored next. -/
theorem see_lt_append {v : ν} {W : View τ ℓ} (hV : ∀ l, V.seen l < (M.messages l).length)
    (k : ℓ) : (V.see l (M.messages l).length).seen k < ((M.append t l v W).messages k).length := by
  rw [View.seen_see, Function.update_apply]
  split
  · rename_i hk
    rw [hk, append_messages_self, List.length_append]
    exact Nat.lt_succ_self _
  · exact Nat.lt_of_lt_of_le (hV k) length_append_messages

theorem Sound.append (h : M.Sound) {v : ν} (hV : ∀ l, V.seen l < (M.messages l).length) :
    (M.append t l v V).Sound where
  seen := (h.seen.mono (fun W hW k => Nat.lt_of_lt_of_le (hW k) length_append_messages)).append
    (see_lt_append hV) (see_lt_append (h.seen.thread t))
  own k j m hm := by
    by_cases hk : k = l
    · subst hk
      rw [append_messages_self, List.getElem?_append] at hm
      split at hm
      · exact h.own k j m hm
      · rw [List.getElem?_singleton] at hm
        split at hm
        · cases hm
          rw [View.seen_see, Function.update_self]
          omega
        · cases hm
    · rw [append_messages_of_ne hk] at hm
      exact h.own k j m hm
  writes x u := by
    refine (h.writes x u).trans ?_
    exact known_le_update (V := (M.view t).see l (M.messages l).length) (le_refl _) u
  reads x u := by
    refine (h.reads x u).trans ?_
    exact known_le_update (V := (M.view t).see l (M.messages l).length) (le_refl _) u

variable [DecidableEq ρ] {x : ρ}

omit [DecidableEq ℓ] [DecidableEq ρ] in
/-- The clocks of a location, with that of an access made now. -/
theorem update_clock_le {clocks : τ → ℕ} (hclocks : ∀ u, clocks u ≤ (M.view u).known u) (u : τ) :
    Function.update clocks t ((M.view t).known t + 1) u
      ≤ (Function.update M.view t ((M.view t).tick t) u).known u := by
  by_cases hu : u = t
  · subst hu
    rw [Function.update_self, Function.update_self, View.known_tick, Function.update_self]
  · rw [Function.update_of_ne hu, Function.update_of_ne hu]
    exact hclocks u

omit [DecidableEq ℓ] in
/-- An access by a thread, with clocks that it knows. -/
theorem Sound.access (h : M.Sound) {c : Cell τ α}
    (hwrites : ∀ u, c.writes u ≤ (Function.update M.view t ((M.view t).tick t) u).known u)
    (hreads : ∀ u, c.reads u ≤ (Function.update M.view t ((M.view t).tick t) u).known u) :
    (M.access t x c).Sound where
  seen := h.seen.access (h.seen.thread t)
  own := h.own
  writes y u := by
    show (Function.update M.cell x c y).writes u ≤ _
    rw [Function.update_apply]
    split
    · exact hwrites u
    · exact (h.writes y u).trans (known_le_update (View.known_le_tick _ _ _) u)
  reads y u := by
    show (Function.update M.cell x c y).reads u ≤ _
    rw [Function.update_apply]
    split
    · exact hreads u
    · exact (h.reads y u).trans (known_le_update (View.known_le_tick _ _ _) u)

omit [DecidableEq ℓ] in
theorem Sound.read (h : M.Sound) : (M.read t x).2.Sound :=
  h.access (fun u => (h.writes x u).trans (known_le_update (View.known_le_tick _ _ _) u))
    (update_clock_le (h.reads x))

omit [DecidableEq ℓ] in
theorem Sound.write (h : M.Sound) {v : α} : (M.write t x v).Sound :=
  h.access (update_clock_le (h.writes x))
    (fun u => (h.reads x u).trans (known_le_update (View.known_le_tick _ _ _) u))

omit [DecidableEq ℓ] in
/-- A read changes no value. -/
theorem read_value (y : ρ) : ((M.read t x).2.cell y).value = (M.cell y).value := by
  show (Function.update M.cell x _ y).value = _
  rw [Function.update_apply]
  split
  · rename_i hy
    rw [hy]
  · rfl

omit [DecidableEq ℓ] in
theorem read_writes (y : ρ) : ((M.read t x).2.cell y).writes = (M.cell y).writes := by
  show (Function.update M.cell x _ y).writes = _
  rw [Function.update_apply]
  split
  · rename_i hy
    rw [hy]
  · rfl

omit [DecidableEq ℓ] in
theorem write_reads (v : α) (y : ρ) : ((M.write t x v).cell y).reads = (M.cell y).reads := by
  show (Function.update M.cell x _ y).reads = _
  rw [Function.update_apply]
  split
  · rename_i hy
    rw [hy]
  · rfl

omit [DecidableEq ℓ] in
theorem write_writes_of_ne {u : τ} (hu : u ≠ t) (v : α) (y : ρ) :
    ((M.write t x v).cell y).writes u = (M.cell y).writes u := by
  show (Function.update M.cell x _ y).writes u = _
  rw [Function.update_apply]
  split
  · rename_i hy
    rw [hy]
    exact Function.update_of_ne hu _ _
  · rfl

omit [DecidableEq ℓ] in
@[simp] theorem write_value (v : α) : ((M.write t x v).cell x).value = v := by
  show (Function.update M.cell x _ x).value = v
  rw [Function.update_self]

/-! ## Views grow -/

omit [DecidableEq ℓ] [DecidableEq ρ] in
theorem seen_le_setView (hle : ∀ l, (M.view t).seen l ≤ V.seen l) (u : τ) (l : ℓ) :
    (M.view u).seen l ≤ ((M.setView t V).view u).seen l := by
  rw [setView_view, Function.update_apply]
  split
  · rename_i hu
    rw [hu]
    exact hle l
  · exact le_refl _

omit [DecidableEq ρ] in
theorem Sound.seen_le_append (h : M.Sound) {v : ν} {W : View τ ℓ} (u : τ) (k : ℓ) :
    (M.view u).seen k ≤ ((M.append t l v W).view u).seen k := by
  refine seen_le_setView (V := (M.view t).see l (M.messages l).length) (fun k => ?_) u k
  rw [View.seen_see, Function.update_apply]
  split
  · rename_i hk
    rw [hk]
    exact (h.seen.thread t l).le
  · exact le_refl _

omit [DecidableEq ℓ] in
theorem seen_access {c : Cell τ α} (u : τ) (l : ℓ) :
    ((M.access t x c).view u).seen l = (M.view u).seen l := by
  show (Function.update M.view t ((M.view t).tick t) u).seen l = _
  rw [Function.update_apply]
  split
  · rename_i hu
    rw [hu, View.seen_tick]
  · rfl

end Sound

/-! ## One operation at a time -/

section Op

variable [DecidableEq τ] [DecidableEq ℓ] [DecidableEq ρ]

/-- **What an operation of a thread does**, with the location that it changes, if any: a load takes
over a view, a store or a read-modify-write hands one on, and plain accesses leave their clock. -/
inductive Op (M : SharedMemory τ ℓ ν ρ α) (t : τ) :
    Option (ℓ ⊕ ρ) → SharedMemory τ ℓ ν ρ α → Prop where
  | join {V : View τ ℓ} (hV : M.Handed V) : M.Op t none (M.setView t (M.view t ⊔ V))
  | store {V : View τ ℓ} (hV : M.Handed V) (l : ℓ) (v : ν) :
      M.Op t (some (.inl l)) (M.append t l v V)
  | read (x : ρ) : M.Op t (some (.inr x)) (M.read t x).2
  | write (x : ρ) (v : α) : M.Op t (some (.inr x)) (M.write t x v)

variable {M M' : SharedMemory τ ℓ ν ρ α} {t : τ} {target : Option (ℓ ⊕ ρ)}

namespace Op

/-- Nothing is done where a thread takes over its own view. -/
theorem refl : M.Op t none M := by
  have hjoin : M.Op t none (M.setView t (M.view t ⊔ M.view t)) := .join (.thread t)
  rwa [sup_idem, setView_self] at hjoin

theorem sound (hop : M.Op t target M') (h : M.Sound) : M'.Sound := by
  cases hop with
  | join hV => exact h.join hV
  | store hV l v => exact h.append (h.handed hV)
  | read x => exact h.read
  | write x v => exact h.write

/-- **A location that is not changed.** -/
theorem messages_eq (hop : M.Op t target M') {l : ℓ} (hl : target ≠ some (.inl l)) :
    M'.messages l = M.messages l := by
  cases hop with
  | store hV k v => exact append_messages_of_ne (fun heq => hl (by rw [heq]))
  | _ => rfl

theorem cell_eq (hop : M.Op t target M') {x : ρ} (hx : target ≠ some (.inr x)) :
    M'.cell x = M.cell x := by
  cases hop with
  | join hV => rfl
  | store hV k v => rfl
  | read y => exact Function.update_of_ne (fun heq => hx (by rw [heq])) _ _
  | write y v => exact Function.update_of_ne (fun heq => hx (by rw [heq])) _ _

/-- **No operation takes knowledge away**: what was seen, -/
theorem seen_le (hop : M.Op t target M') (h : M.Sound) (u : τ) (l : ℓ) :
    (M.view u).seen l ≤ (M'.view u).seen l := by
  cases hop with
  | join hV => exact seen_le_setView (fun _ => le_max_left _ _) u l
  | store hV k v => exact h.seen_le_append u l
  | read x => exact (seen_access u l).ge
  | write x v => exact (seen_access u l).ge

/-- and what was known. -/
theorem known_le (hop : M.Op t target M') (u v : τ) :
    (M.view u).known v ≤ (M'.view u).known v := by
  have hupdate : ∀ V : View τ ℓ, (M.view t).known v ≤ V.known v →
      (M.view u).known v ≤ (Function.update M.view t V u).known v := by
    intro V hV
    rw [Function.update_apply]
    split
    · rename_i hu
      rw [hu]
      exact hV
    · exact le_refl _
  cases hop with
  | join hV => exact hupdate _ (le_max_left _ _)
  | store hV l x => exact hupdate _ (le_refl _)
  | read x => exact hupdate _ (View.known_le_tick _ _ _)
  | write x y => exact hupdate _ (View.known_le_tick _ _ _)

/-- **What views say is kept** if it is kept by joins, by the clock of a thread going on, and by
seeing a new message of the location that is stored to. -/
theorem everywhere (hop : M.Op t target M') {P : View τ ℓ → Prop} (h : M.Everywhere P)
    (hsup : ∀ V W, P V → P W → P (V ⊔ W)) (htick : ∀ V u, P V → P (V.tick u))
    (hsee : ∀ V l i, target = some (.inl l) → P V → P (V.see l i)) : M'.Everywhere P := by
  cases hop with
  | join hV => exact h.setView (hsup _ _ (h.thread t) (h.handed hsup hV))
  | store hV l v =>
    exact h.append (hsee _ _ _ rfl (h.handed hsup hV)) (hsee _ _ _ rfl (h.thread t))
  | read x => exact h.access (htick _ _ (h.thread t))
  | write x v => exact h.access (htick _ _ (h.thread t))

end Op

/-! ## The operations of a program -/

theorem op_loadAcquire {l : ℓ} {i : ℕ} {v : ν} (h : M.loadAcquire t l i = some (v, M')) :
    M.Op t none M' := by
  obtain ⟨m, hm, -, -, rfl⟩ := loadAcquire_eq_some h
  exact .join (.message (List.mem_of_getElem? hm))

theorem op_storeRelease {l : ℓ} {v : ν} : M.Op t (some (.inl l)) (M.storeRelease t l v) :=
  .store (.thread t) l v

omit [DecidableEq ρ] in
/-- **What a relaxed read-modify-write does.** -/
theorem fetchRelaxed_eq_some {l : ℓ} {f : ν → ν} {v : ν}
    (h : M.fetchRelaxed t l f = some (v, M')) :
    ∃ m, (M.messages l).getLast? = some m ∧ v = m.value ∧ M' = M.append t l (f v) m.view := by
  obtain ⟨m, hm, heq⟩ := Option.map_eq_some_iff.mp h
  cases heq
  exact ⟨m, hm, rfl, rfl⟩

omit [DecidableEq ρ] in
/-- **What a release read-modify-write does.** -/
theorem fetchRelease_eq_some {l : ℓ} {f : ν → ν} {v : ν}
    (h : M.fetchRelease t l f = some (v, M')) :
    ∃ m, (M.messages l).getLast? = some m ∧ v = m.value
      ∧ M' = M.append t l (f v) (m.view ⊔ M.view t) := by
  obtain ⟨m, hm, heq⟩ := Option.map_eq_some_iff.mp h
  cases heq
  exact ⟨m, hm, rfl, rfl⟩

theorem op_fetchRelaxed {l : ℓ} {f : ν → ν} {v : ν} (h : M.fetchRelaxed t l f = some (v, M')) :
    M.Op t (some (.inl l)) M' := by
  obtain ⟨m, hm, rfl, rfl⟩ := fetchRelaxed_eq_some h
  exact .store (.message (List.mem_of_getLast? hm)) l _

theorem op_fetchRelease {l : ℓ} {f : ν → ν} {v : ν} (h : M.fetchRelease t l f = some (v, M')) :
    M.Op t (some (.inl l)) M' := by
  obtain ⟨m, hm, rfl, rfl⟩ := fetchRelease_eq_some h
  exact .store (.sup (.message (List.mem_of_getLast? hm)) (.thread t)) l _

end Op

end SharedMemory
