import SapCore.Machine
import SapCore.SpscQueue

/-!
# The queue under every interleaving

One producer and one consumer, each making one access at a time and in any
order: the producer calls `try_push` with any items, the consumer calls
`try_pop`, and a schedule says whose access is next. `State` is the shared
memory with the place of each side's call, together with the items pushed and
popped so far.

The queue's invariant holds in every state any schedule reaches
(`ok_of_reachable`), and what is promised of the queue is read off it
(`queue_correct`).
-/

namespace SpscQueue

variable {α : Type}

/-- **The queue and its two sides.** -/
structure State (α : Type) where
  /-- The shared memory. -/
  queue : SpscQueue α
  /-- The producer's call of `try_push`, where it is inside one. -/
  producer : Option (Push α)
  /-- The consumer's call of `try_pop`, where it is inside one. -/
  consumer : Option (Pop α)
  /-- The items accepted by calls of `try_push`, in order. -/
  pushed : List α
  /-- The items returned by calls of `try_pop`, in order. -/
  popped : List α

/-- **Who moves.** -/
inductive Action (α : Type) where
  /-- The producer calls `try_push`. -/
  | callPush (item : α)
  /-- The producer makes its next access. -/
  | push
  /-- The consumer calls `try_pop`. -/
  | callPop
  /-- The consumer makes its next access. -/
  | pop
  deriving DecidableEq, Repr

/-- **One step of either side.** A call is made only between calls, an access
only inside one. -/
def step (capacity : ℕ) (s : State α) : Action α → Option (State α)
  | .callPush item =>
    match s.producer with
    | none => some { s with producer := some (.loadHead item) }
    | some _ => none
  | .push =>
    match s.producer with
    | none => none
    | some pc =>
      let (queue, out) := tryPush capacity s.queue pc
      some { s with
        queue := queue
        producer := out.getLeft?
        pushed := s.pushed ++ pc.published }
  | .callPop =>
    match s.consumer with
    | none => some { s with consumer := some .loadTail }
    | some _ => none
  | .pop =>
    match s.consumer with
    | none => none
    | some pc =>
      let (queue, out) := tryPop capacity s.queue pc
      some { s with
        queue := queue
        consumer := out.getLeft?
        popped := s.popped ++ pc.taken }

/-- The queue as constructed, its slots holding whatever they hold, and both
sides between calls. -/
def machine (capacity : ℕ) (buffer : ℕ → α) : Machine (State α) (Action α) where
  init := ⟨⟨0, 0, buffer⟩, none, none, [], []⟩
  step := step capacity

/-! ## The invariant over runs -/

/-- The memory and both calls are as the invariant of the queue says. -/
structure State.Ok (k : ℕ) (s : State α) : Prop where
  inv : Inv (2 ^ k) s.queue s.pushed s.popped
  producer : ∀ pc, s.producer = some pc → pc.Ok (2 ^ k) s.queue s.pushed s.popped
  consumer : ∀ pc, s.consumer = some pc → pc.Ok s.queue s.pushed s.popped

/-- An access of the producer keeps the invariant. -/
theorem ok_push {k : ℕ} {s : State α} {pc : Push α} {q : SpscQueue α} {out : Push α ⊕ Bool}
    (h : s.Ok k) (hpc : s.producer = some pc) (hstep : tryPush (2 ^ k) s.queue pc = (q, out)) :
    State.Ok k { s with
      queue := q, producer := out.getLeft?, pushed := s.pushed ++ pc.published } := by
  obtain ⟨hinv, hcont, -⟩ := tryPush_spec h.inv (h.producer pc hpc) hstep
  refine ⟨hinv, ?_, fun pop hpop => tryPush_keeps_pop (h.consumer pop hpop) hstep⟩
  intro pc' hpc'
  have hout := Sum.getLeft?_eq_some_iff.mp hpc'
  rw [((tryPush_published hstep).1 pc' hout).1, List.append_nil]
  exact hcont pc' hout

/-- An access of the consumer keeps the invariant. -/
theorem ok_pop {k : ℕ} {s : State α} {pc : Pop α} {q : SpscQueue α} {out : Pop α ⊕ Option α}
    (h : s.Ok k) (hpc : s.consumer = some pc) (hstep : tryPop (2 ^ k) s.queue pc = (q, out)) :
    State.Ok k { s with
      queue := q, consumer := out.getLeft?, popped := s.popped ++ pc.taken } := by
  obtain ⟨hinv, hcont, -⟩ := tryPop_spec h.inv (h.consumer pc hpc) hstep
  refine ⟨hinv, fun push hpush => tryPop_keeps_push (h.producer push hpush) hstep, ?_⟩
  intro pc' hpc'
  have hout := Sum.getLeft?_eq_some_iff.mp hpc'
  rw [(tryPop_taken hstep).1 pc' hout, List.append_nil]
  exact hcont pc' hout

/-- **Every step keeps the invariant.** -/
theorem ok_step {k : ℕ} {s s' : State α} {a : Action α} (h : s.Ok k)
    (hstep : step (2 ^ k) s a = some s') : s'.Ok k := by
  cases a with
  | callPush item =>
    rw [step] at hstep
    split at hstep
    · cases hstep
      exact ⟨h.inv, fun pc hpc => by cases hpc; exact trivial, h.consumer⟩
    · cases hstep
  | push =>
    rw [step] at hstep
    split at hstep
    · cases hstep
    · rename_i pc hpc
      cases hstep
      exact ok_push h hpc rfl
  | callPop =>
    rw [step] at hstep
    split at hstep
    · cases hstep
      exact ⟨h.inv, h.producer, fun pc hpc => by cases hpc; exact trivial⟩
    · cases hstep
  | pop =>
    rw [step] at hstep
    split at hstep
    · cases hstep
    · rename_i pc hpc
      cases hstep
      exact ok_pop h hpc rfl

/-- **The invariant holds in every state any interleaving reaches.** -/
theorem ok_of_reachable {k : ℕ} {buffer : ℕ → α} {s : State α}
    (h : (machine (2 ^ k) buffer).Reachable s) : s.Ok k := by
  refine Machine.ReachableBy.invariant (I := State.Ok k) ⟨inv_empty k buffer, ?_, ?_⟩
    (fun _ _ _ _ hs _ hstep => ok_step hs hstep) h
  · intro pc hpc
    cases hpc
  · intro pc hpc
    cases hpc

/-! ## What enters the books -/

/-- **What a `try_push` enters**: the item it was called with, when it returns `true`, and
nothing otherwise. -/
theorem pushed_step {c : ℕ} {s s' : State α} {pc : Push α} {q : SpscQueue α} {out : Push α ⊕ Bool}
    (hpc : s.producer = some pc) (hout : tryPush c s.queue pc = (q, out))
    (hstep : step c s .push = some s') :
    s'.popped = s.popped
      ∧ (∀ pc', out = .inl pc' → s'.producer = some pc' ∧ pc'.item = pc.item
        ∧ s'.pushed = s.pushed)
      ∧ (out = .inr false → s'.pushed = s.pushed)
      ∧ (out = .inr true → s'.pushed = s.pushed ++ [pc.item]) := by
  simp only [step, hpc, hout, Option.some.injEq] at hstep
  subst hstep
  obtain ⟨hgoes, hfails, hsucceeds⟩ := tryPush_published hout
  refine ⟨rfl, ?_, fun h => ?_, fun h => ?_⟩
  · rintro pc' rfl
    obtain ⟨hnone, hitem⟩ := hgoes pc' rfl
    exact ⟨rfl, hitem, by rw [hnone, List.append_nil]⟩
  · rw [hfails h, List.append_nil]
  · rw [hsucceeds h]

/-- **What a `try_pop` enters**: the item it returns, and nothing where it returns none. -/
theorem popped_step {c : ℕ} {s s' : State α} {pc : Pop α} {q : SpscQueue α}
    {out : Pop α ⊕ Option α} (hpc : s.consumer = some pc) (hout : tryPop c s.queue pc = (q, out))
    (hstep : step c s .pop = some s') :
    s'.pushed = s.pushed
      ∧ (∀ pc', out = .inl pc' → s'.consumer = some pc' ∧ s'.popped = s.popped)
      ∧ (out = .inr none → s'.popped = s.popped)
      ∧ (∀ item, out = .inr (some item) → s'.popped = s.popped ++ [item]) := by
  simp only [step, hpc, hout, Option.some.injEq] at hstep
  subst hstep
  obtain ⟨hgoes, hfails, hsucceeds⟩ := tryPop_taken hout
  refine ⟨rfl, ?_, fun h => ?_, fun item h => ?_⟩
  · rintro pc' rfl
    exact ⟨rfl, by rw [hgoes pc' rfl, List.append_nil]⟩
  · rw [hfails h, List.append_nil]
  · rw [hsucceeds item h]

/-! ## What the queue promises -/

/-- The slot a call of `try_pop` is about to read or give back: it has made its
check and not yet stored its index. -/
def Pop.slot : Pop α → Option ℕ
  | .loadTail => none
  | .loadHead _ => none
  | .readSlot tail => some tail
  | .storeTail tail _ => some tail

/-- The number of items in the queue. -/
def State.size (s : State α) : ℕ := s.pushed.length - s.popped.length

/-- A call past its check holds the slot of the first item in the queue, which
is there. -/
theorem Pop.Ok.slot_eq {q : SpscQueue α} {pushed popped : List α} {pc : Pop α} {i : ℕ}
    (h : pc.Ok q pushed popped) (hi : pc.slot = some i) :
    i = q.tail ∧ popped.length < pushed.length := by
  cases pc with
  | loadTail => cases hi
  | loadHead tail => cases hi
  | readSlot tail =>
    cases hi
    exact h
  | storeTail tail item =>
    cases hi
    exact ⟨h.1, (List.getElem?_eq_some_iff.mp h.2).1⟩

/-- **The queue is correct under every interleaving**, for every capacity that
is a power of two: what is popped is, in order, the first of what was pushed;
at most all slots but one are in use; the producer never writes the slot a
`try_pop` is between checking and giving back; a `try_push` fails only where it
finds all slots but one in use, and a `try_pop` only where it finds none. Pushed
are the items of the calls of `try_push` that returned `true`, and popped is what
the calls of `try_pop` returned. -/
theorem queue_correct (k : ℕ) (buffer : ℕ → α) {s : State α}
    (h : (machine (2 ^ k) buffer).Reachable s) :
    s.popped <+: s.pushed
      ∧ s.size ≤ 2 ^ k - 1
      ∧ (∀ item slot pc, s.producer = some (.writeSlot item slot) → s.consumer = some pc →
        pc.slot ≠ some slot)
      ∧ (∀ pc q, s.producer = some pc → tryPush (2 ^ k) s.queue pc = (q, .inr false) →
        s.size = 2 ^ k - 1)
      ∧ (∀ pc q, s.consumer = some pc → tryPop (2 ^ k) s.queue pc = (q, .inr none) →
        s.size = 0)
      ∧ (∀ pc q out s', s.producer = some pc → tryPush (2 ^ k) s.queue pc = (q, out) →
        step (2 ^ k) s .push = some s' → s'.popped = s.popped
          ∧ (∀ pc', out = .inl pc' → s'.producer = some pc' ∧ pc'.item = pc.item
            ∧ s'.pushed = s.pushed)
          ∧ (out = .inr false → s'.pushed = s.pushed)
          ∧ (out = .inr true → s'.pushed = s.pushed ++ [pc.item]))
      ∧ (∀ pc q out s', s.consumer = some pc → tryPop (2 ^ k) s.queue pc = (q, out) →
        step (2 ^ k) s .pop = some s' → s'.pushed = s.pushed
          ∧ (∀ pc', out = .inl pc' → s'.consumer = some pc' ∧ s'.popped = s.popped)
          ∧ (out = .inr none → s'.popped = s.popped)
          ∧ (∀ item, out = .inr (some item) → s'.popped = s.popped ++ [item])) := by
  have hok := ok_of_reachable h
  have hfree := hok.inv.free
  have hle := hok.inv.popped_le
  refine ⟨hok.inv.fifo, ?_, ?_, ?_, ?_, fun pc q out s' hpc hout => pushed_step hpc hout,
    fun pc q out s' hpc hout => popped_step hpc hout⟩
  · unfold State.size
    omega
  · intro item slot pc hpush hpop hslot
    obtain ⟨hhead, -⟩ := hok.producer _ hpush
    obtain ⟨htail, hlt⟩ := (hok.consumer _ hpop).slot_eq hslot
    -- the tail holds the first item of the window, and the head is past the window
    refine hok.inv.slot_free (le_refl _) hlt ?_
    rw [← hok.inv.tail_eq, ← htail, hhead]
  · intro pc q hpush hstep
    obtain ⟨-, -, hfull⟩ := tryPush_spec hok.inv (hok.producer pc hpush) hstep
    have hcount := hfull rfl
    unfold State.size
    omega
  · intro pc q hpop hstep
    obtain ⟨-, -, hempty⟩ := tryPop_spec hok.inv (hok.consumer pc hpop) hstep
    have hcount := hempty rfl
    unfold State.size
    omega

/-- A schedule on a ring of two slots: one item in, and a second call that
finds the queue full while the consumer is about to read. -/
def fullSchedule : List (Action ℕ) :=
  [.callPush 5, .push, .push, .push, .push, .callPop, .pop, .pop, .callPush 6, .push]

/-- The promises where that schedule ends, and two accesses later: the queue holds
its one item, and the `try_push` about to fail fails for that reason; then the
`try_pop` returns the item, which is the one popped. -/
theorem queue_correct_full :
    ∃ s s₁ s₂ : State ℕ, (machine (2 ^ 1) (fun _ => 0)).Reachable s
      ∧ s.pushed = [5] ∧ s.producer = some (.loadTail 6 1) ∧ s.consumer = some (.readSlot 0)
      ∧ s.popped <+: s.pushed ∧ s.size = 2 ^ 1 - 1
      ∧ step (2 ^ 1) s .pop = some s₁ ∧ step (2 ^ 1) s₁ .pop = some s₂
      ∧ (tryPop (2 ^ 1) s₁.queue (.storeTail 0 5)).2 = .inr (some 5)
      ∧ s₁.popped = [] ∧ s₂.popped = s₁.popped ++ [5] := by
  have hrun : (machine (2 ^ 1) (fun _ => (0 : ℕ))).run (machine (2 ^ 1) (fun _ => 0)).init
      fullSchedule = some ⟨⟨1, 0, Function.update (fun _ => 0) 0 5⟩,
        some (.loadTail 6 1), some (.readSlot 0), [5], []⟩ := rfl
  have hreach := Machine.ReachableBy.run (L := fun _ => True) Machine.ReachableBy.init
    (fun _ _ => trivial) hrun
  have hread : (machine (2 ^ 1) (fun _ => (0 : ℕ))).step ⟨⟨1, 0, Function.update (fun _ => 0) 0 5⟩,
      some (.loadTail 6 1), some (.readSlot 0), [5], []⟩ .pop
      = some ⟨⟨1, 0, Function.update (fun _ => 0) 0 5⟩, some (.loadTail 6 1),
        some (.storeTail 0 5), [5], []⟩ := rfl
  have hreach₁ := Machine.ReachableBy.step hreach trivial hread
  obtain ⟨hfifo, -, -, hfull, -⟩ := queue_correct 1 (fun _ => 0) hreach
  obtain ⟨-, -, -, -, -, -, htaken⟩ := queue_correct 1 (fun _ => 0) hreach₁
  obtain ⟨-, -, -, hpopped⟩ := htaken _ _ _ _ rfl rfl rfl
  exact ⟨_, _, _, hreach, rfl, rfl, rfl, hfifo, hfull _ _ rfl rfl, hread, rfl, rfl, rfl,
    hpopped 5 rfl⟩

end SpscQueue
