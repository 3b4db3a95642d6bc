import SapCore.Executor

/-!
# The ready queue

Handles are pushed at the back of `m_ready` and taken out at its front, and nothing
else is done to it. `Grows` says it of a part of an event: what was pushed stands at
the end of the queue and at the end of its history, and nothing was resumed. The
handles that were pushed are then, in order, those that were resumed and those that
still wait (`Fifo`), in every state of every run.

Most parts of events do not change either which coroutines are suspended, and push
for awaiters only (`Keeps`).
-/

namespace Executor

variable {α τ κ η : Type} {s s₁ s₂ : Executor α τ κ} {new new₁ new₂ : List (κ × Option α)}

/-- **Entries are pushed**, and none is taken out. -/
structure Grows (new : List (κ × Option α)) (s s' : Executor α τ κ) : Prop where
  ready : s'.ready = s.ready ++ new
  pushed : s'.pushed = s.pushed ++ new.map Prod.fst
  resumed : s'.resumed = s.resumed

/-- A part of an event that pushes some entries, or none. -/
def Pushes (s s' : Executor α τ κ) : Prop := ∃ new, Grows new s s'

/-- **First in, first out**: the handles pushed so far are those resumed so far and
then those in the queue. -/
def Fifo (s : Executor α τ κ) : Prop := s.pushed = s.resumed ++ s.ready.map Prod.fst

theorem Grows.same (hready : s₁.ready = s.ready) (hpushed : s₁.pushed = s.pushed)
    (hresumed : s₁.resumed = s.resumed) : Grows [] s s₁ :=
  ⟨by rw [hready, List.append_nil], by rw [hpushed, List.map_nil, List.append_nil], hresumed⟩

theorem Grows.trans (h₁ : Grows new₁ s s₁) (h₂ : Grows new₂ s₁ s₂) :
    Grows (new₁ ++ new₂) s s₂ where
  ready := by rw [h₂.ready, h₁.ready, List.append_assoc]
  pushed := by rw [h₂.pushed, h₁.pushed, List.map_append, List.append_assoc]
  resumed := h₂.resumed.trans h₁.resumed

theorem Pushes.isPrefix (hs : Pushes s s₁) : s.ready <+: s₁.ready := by
  obtain ⟨new, hs⟩ := hs
  exact ⟨new, hs.ready.symm⟩

theorem Fifo.pushes (hs : Fifo s) (hpushes : Pushes s s₁) : Fifo s₁ := by
  obtain ⟨new, hgrows⟩ := hpushes
  unfold Fifo
  rw [hgrows.pushed, hgrows.resumed, hgrows.ready, List.map_append, ← List.append_assoc]
  exact congrArg (· ++ _) hs

/-- Entries are pushed for awaiters, and the same coroutines are suspended. -/
structure Queues (new : List (κ × Option α)) (s s' : Executor α τ κ) : Prop
    extends Grows new s s' where
  suspendedIn : s'.suspendedIn = s.suspendedIn
  owned : ∀ entry ∈ new, entry.2 ≠ none

/-- **The same coroutines are suspended**, and what was pushed was pushed for awaiters. -/
def Keeps (s s' : Executor α τ κ) : Prop := ∃ new, Queues new s s'

theorem Queues.same (hready : s₁.ready = s.ready) (hpushed : s₁.pushed = s.pushed)
    (hresumed : s₁.resumed = s.resumed) (hsuspended : s₁.suspendedIn = s.suspendedIn) :
    Queues [] s s₁ :=
  ⟨.same hready hpushed hresumed, hsuspended, fun _ hentry => absurd hentry List.not_mem_nil⟩

theorem Queues.trans (h₁ : Queues new₁ s s₁) (h₂ : Queues new₂ s₁ s₂) :
    Queues (new₁ ++ new₂) s s₂ where
  toGrows := h₁.toGrows.trans h₂.toGrows
  suspendedIn := h₂.suspendedIn.trans h₁.suspendedIn
  owned entry hentry := (List.mem_append.mp hentry).elim (h₁.owned entry) (h₂.owned entry)

theorem Queues.push (hs : Queues [] s s₁) (h : κ) (a : α) :
    Queues [(h, some a)] s (s₁.push h (some a)) :=
  hs.trans ⟨⟨rfl, rfl, rfl⟩, rfl, by simp⟩

theorem Keeps.refl (s : Executor α τ κ) : Keeps s s := ⟨[], .same rfl rfl rfl rfl⟩

theorem Keeps.trans (h₁ : Keeps s s₁) (h₂ : Keeps s₁ s₂) : Keeps s s₂ := by
  obtain ⟨new₁, h₁⟩ := h₁
  obtain ⟨new₂, h₂⟩ := h₂
  exact ⟨new₁ ++ new₂, h₁.trans h₂⟩

theorem Keeps.pushes (hs : Keeps s s₁) : Pushes s s₁ := by
  obtain ⟨new, hs⟩ := hs
  exact ⟨new, hs.toGrows⟩

theorem Keeps.suspendedIn (hs : Keeps s s₁) : s₁.suspendedIn = s.suspendedIn := by
  obtain ⟨new, hs⟩ := hs
  exact hs.suspendedIn

theorem Keeps.owned (hs : Keeps s s₁) (howned : ∀ entry ∈ s.ready, entry.2 ≠ none) :
    ∀ entry ∈ s₁.ready, entry.2 ≠ none := by
  obtain ⟨new, hs⟩ := hs
  rw [hs.ready]
  exact fun entry hentry => (List.mem_append.mp hentry).elim (howned entry) (hs.owned entry)

/-! ## The functions -/

variable {setup : Setup α τ η}

theorem keeps_requestStop [DecidableEq τ] (s : Executor α τ κ) (t : τ) :
    Keeps s (s.requestStop t) := by
  unfold requestStop
  split
  · exact .refl s
  · exact ⟨_, .same rfl rfl rfl rfl⟩

variable [DecidableEq α]

theorem queues_modify (s : Executor α τ κ) (a : α) (f : IoAwaiter κ → IoAwaiter κ) :
    Queues [] s (s.modify a f) :=
  .same rfl rfl rfl rfl

theorem keeps_enqueue (s : Executor α τ κ) (a : α) : Keeps s (s.enqueue a) := by
  unfold enqueue
  split
  · exact .refl s
  · split
    · exact ⟨_, (queues_modify s a _).push _ a⟩
    · exact .refl s

theorem keeps_enqueueAll (s : Executor α τ κ) (tokens : List α) :
    Keeps s (s.enqueueAll tokens) := by
  unfold enqueueAll
  induction tokens generalizing s with
  | nil => exact .refl s
  | cons a tokens ih => exact (keeps_enqueue s a).trans (ih (s.enqueue a))

theorem keeps_destroy [DecidableEq τ] (s : Executor α τ κ) (a : α) :
    Keeps s (s.destroy setup a) := by
  unfold destroy
  split
  · exact ⟨_, .same rfl rfl rfl rfl⟩
  · exact ⟨_, .same rfl rfl rfl rfl⟩

theorem grows_countResumption (s : Executor α τ κ) (owner : Option α) :
    Grows [] s (s.countResumption owner) := by
  unfold countResumption
  split
  · exact .same rfl rfl rfl
  · exact .same rfl rfl rfl

variable [DecidableEq η]

theorem queues_deregister (s : Executor α τ κ) (a : α) : Queues [] s (s.deregister setup a) := by
  unfold deregister
  split
  · exact .same rfl rfl rfl rfl
  · exact .same rfl rfl rfl rfl

theorem queues_awaitResume (s : Executor α τ κ) (a : α) : Queues [] s (s.awaitResume setup a) :=
  (queues_deregister s a).trans (.same rfl rfl rfl rfl)

theorem keeps_onCancel (s : Executor α τ κ) (a : α) : Keeps s (s.onCancel setup a) := by
  unfold onCancel
  split
  · exact .refl s
  · exact Keeps.trans ⟨_, (queues_modify s a _).trans (queues_deregister _ a)⟩ (keeps_enqueue _ a)

theorem keeps_armToken [DecidableEq τ] (s : Executor α τ κ) (a : α) :
    Keeps s (s.armToken setup a) := by
  have hstop : ∀ t stop, Keeps s (s.setStop t stop) := fun _ _ => ⟨_, .same rfl rfl rfl rfl⟩
  unfold armToken
  split
  · split
    · exact (hstop _ _).trans (keeps_onCancel _ a)
    · exact hstop _ _
  · exact .refl s

theorem keeps_turn [DecidableEq τ] (s : Executor α τ κ) (t : τ) : Keeps s (s.turn setup t) := by
  have hstop : ∀ stop, Keeps s (s.setStop t stop) := fun _ => ⟨_, .same rfl rfl rfl rfl⟩
  unfold turn
  split
  · split
    · exact (hstop _).trans (keeps_onCancel _ _)
    · exact hstop _
  · exact ⟨_, .same rfl rfl rfl rfl⟩

variable [DecidableEq κ]

theorem grows_goOn (s : Executor α τ κ) (h : κ) : Grows [] s (s.goOn setup h) := by
  unfold goOn
  split
  · have hwake : Grows [] s (s.wake h) := .same rfl rfl rfl
    exact hwake.trans (queues_awaitResume _ _).toGrows
  · exact .same rfl rfl rfl

/-! ## The events -/

variable [DecidableEq τ] {s' : Executor α τ κ} {a : α} {h : κ}

theorem coAwait_of_ready (hready : s.awaitReady setup a = true) (add : Option AddError) :
    s.coAwait setup a h add = s.awaitResume setup a := if_pos hready

/-- **A coroutine is suspended**, and held from then on. -/
theorem keeps_coAwait (hready : s.awaitReady setup a = false) (add : Option AddError) :
    Keeps (s.suspend a h) (s.coAwait setup a h add) := by
  unfold coAwait awaitSuspend
  rw [if_neg (by simp [hready])]
  cases add with
  | some err => exact ⟨_, (queues_modify (s.suspend a h) a _).push h a⟩
  | none =>
    have hregister : Keeps (s.suspend a h) ((s.suspend a h).register a) :=
      ⟨_, .same rfl rfl rfl rfl⟩
    exact hregister.trans (keeps_armToken _ a)

theorem pushes_coAwait (s : Executor α τ κ) (a : α) (h : κ) (add : Option AddError) :
    Pushes s (s.coAwait setup a h add) := by
  cases hready : s.awaitReady setup a with
  | true =>
    rw [coAwait_of_ready hready]
    exact ⟨_, (queues_awaitResume s a).toGrows⟩
  | false =>
    obtain ⟨new, hgrows⟩ := (keeps_coAwait (h := h) hready add).pushes
    have hsuspend : Grows [] s (s.suspend a h) := .same rfl rfl rfl
    exact ⟨_, hsuspend.trans hgrows⟩

/-- **An event other than `resume` pushes only.** -/
theorem pushes_of_step {event : Event α τ κ} (hevent : event ≠ .resume)
    (hstep : s.step setup event = some s') : Pushes s s' := by
  cases step_cases hstep with
  | turn => exact (keeps_turn s _).pushes
  | coAwait => exact pushes_coAwait s _ _ _
  | trigger => exact (keeps_enqueueAll s _).pushes
  | requestStop => exact (keeps_requestStop s _).pushes
  | resume => exact absurd rfl hevent
  | schedule => exact ⟨_, rfl, rfl, rfl⟩
  | destroy => exact (keeps_destroy s _).pushes

/-- **`resume` takes the first entry out.** -/
theorem resume_of_step (hstep : s.step setup .resume = some s') :
    ∃ h owner, s.ready = (h, owner) :: s'.ready ∧ s'.pushed = s.pushed
      ∧ s'.resumed = s.resumed ++ [h] := by
  cases step_cases hstep with
  | @resume h owner rest hready =>
    have hgrows : Grows [] (s.popFront h rest) (s.resumeFront setup h owner rest) :=
      (grows_countResumption _ owner).trans (grows_goOn _ h)
    refine ⟨h, owner, ?_, ?_, hgrows.resumed⟩
    · rw [hgrows.ready, hready, List.append_nil]
      rfl
    · rw [hgrows.pushed, List.map_nil, List.append_nil]
      rfl

/-- **Every event keeps the order.** -/
theorem fifo_step (hs : Fifo s) {event : Event α τ κ} (hstep : s.step setup event = some s') :
    Fifo s' := by
  by_cases hevent : event = .resume
  · subst hevent
    obtain ⟨h, owner, hready, hpushed, hresumed⟩ := resume_of_step hstep
    unfold Fifo at hs ⊢
    rw [hpushed, hresumed, hs, hready, List.map_cons, List.append_assoc]
    rfl
  · exact hs.pushes (pushes_of_step hevent hstep)

end Executor
