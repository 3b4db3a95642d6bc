import SapCore.ExecutorAccounting
import SapCore.Reactor

/-!
# What the executor asks of a reactor

The machine of `Executor` takes it from its labels which tokens the reactor reports, and allows
only tokens of handles that were added and not removed. In the source a token is the address of an
awaiter, cast to 64 bits for `Reactor::add` and cast back to a pointer when it is reported; whether
there is an awaiter at that address is up to `await_suspend`, `await_resume` and `on_cancel`, which
add and remove. Addresses are used again, by the next awaiter of a loop or in the next frame; so
what a token stands for is the awaiter that was made last at the address (`seat`).

Before the executor is put together with a reactor, here is what its side of the matter is: the
registrations, and what each event does to them (`registrations_step`). An event makes at most one
registration, in a `co_await`, and ends at most one: in `await_resume`, for the coroutine that is
resumed, and in `on_cancel`, for the awaiter that a stop cancels.
-/

/-- **How the awaiters are set up**, with their interest and their addresses. -/
structure Wiring (α τ η : Type) extends Setup α τ η where
  interest : α → EventFlags
  /-- `reinterpret_cast<u64>(this)`; several awaiters may have one address, one after the other. -/
  address : α → UInt64

/-- Who is at an address, after an awaiter was made there. -/
def Wiring.seat {α τ η : Type} (wiring : Wiring α τ η) (occupant : UInt64 → Option α) (a : α) :
    UInt64 → Option α :=
  Function.update occupant (wiring.address a) (some a)

namespace Executor

variable {α τ κ η : Type} {wiring : Wiring α τ η} {s s' : Executor α τ κ} {a : α} {h : κ}

variable {occupant : UInt64 → Option α}

/-- The awaiters at the addresses in a batch of triggers. -/
theorem exists_tokens {P : α → Prop} {triggers : List (η × Trigger)}
    (h : ∀ t ∈ triggers, ∃ a, P a ∧ occupant t.2.userToken = some a) :
    ∃ tokens : List α, tokens.map some = triggers.map (fun t => occupant t.2.userToken)
      ∧ ∀ a ∈ tokens, P a := by
  induction triggers with
  | nil => exact ⟨[], rfl, by simp⟩
  | cons t triggers ih =>
    obtain ⟨a, ha, hat⟩ := h t List.mem_cons_self
    obtain ⟨tokens, htokens, hall⟩ := ih (fun t ht => h t (List.mem_cons_of_mem _ ht))
    refine ⟨a :: tokens, ?_, ?_⟩
    · rw [List.map_cons, List.map_cons, hat, htokens]
    · intro b hb
      obtain rfl | hb := List.mem_cons.mp hb
      · exact ha
      · exact hall b hb

/-- What is true of the awaiters at the addresses in a batch. -/
theorem forall_tokens {P : α → Prop} {triggers : List (η × Trigger)} {tokens : List α}
    (htokens : tokens.map some = triggers.map (fun t => occupant t.2.userToken))
    (h : ∀ t ∈ triggers, ∃ a, P a ∧ occupant t.2.userToken = some a) : ∀ a ∈ tokens, P a := by
  intro a ha
  have hmem : some a ∈ triggers.map (fun t => occupant t.2.userToken) := by
    rw [← htokens]
    exact List.mem_map_of_mem ha
  obtain ⟨t, ht, hat⟩ := List.mem_map.mp hmem
  obtain ⟨b, hb, hbt⟩ := h t ht
  obtain rfl := Option.some.inj (hat.symm.trans hbt)
  exact hb

/-- An awaiter that is not where another is made stays where it is. -/
theorem seat_of_ne {b : α} (hne : wiring.address b ≠ wiring.address a) :
    wiring.seat occupant a (wiring.address b) = occupant (wiring.address b) :=
  Function.update_of_ne hne _ _

/-- The awaiter that the next turn of `request_stop` cancels. -/
def cancelling (s : Executor α τ κ) [DecidableEq α] : Option α :=
  match s.draining with
  | some t =>
    match (s.stop t).unlinkHead with
    | some (cb, stop) => (stop.fn cb).filter (fun a => !(s.awaiter a).cancelled)
    | none => none
  | none => none

/-- The awaiter in which the coroutine at the front of `m_ready` is suspended. -/
def resuming (s : Executor α τ κ) : Option α := s.ready.head?.bind (fun e => s.suspendedIn e.1)

/-! ## Registrations -/

/-- What the executor has of a registration: `m_registered`, and whether the handle was added. -/
def registrations (s : Executor α τ κ) (a : α) : Bool × Bool :=
  ((s.awaiter a).registered, s.added a)

variable [DecidableEq α] [DecidableEq η] {setup : Setup α τ η}

/-- The registrations without that of an awaiter. -/
def withdraw (handle : α → η) (reg : α → Bool × Bool) (a : α) : α → Bool × Bool :=
  if (reg a).1 then
    fun b => (if b = a then false else (reg b).1,
      if handle b = handle a then false else (reg b).2)
  else reg

/-- The registrations without that of an awaiter, if there is one. -/
def withdrawn (handle : α → η) (reg : α → Bool × Bool) (a : Option α) : α → Bool × Bool :=
  a.elim reg (withdraw handle reg)

/-- An awaiter that is not registered has nothing to withdraw. -/
theorem withdraw_of_not_registered {handle : α → η} {reg : α → Bool × Bool}
    (h : (reg a).1 = false) : withdraw handle reg a = reg := by
  rw [withdraw, h]
  rfl

/-- Who is registered after a withdrawal. -/
theorem withdraw_registered {handle : α → η} {reg : α → Bool × Bool} (h : (reg a).1 = true)
    {b : α} : (withdraw handle reg a b).1 = true ↔ b ≠ a ∧ (reg b).1 = true := by
  rw [withdraw, if_pos h]
  by_cases hba : b = a
  · simp [hba]
  · simp [hba]

omit [DecidableEq η] in
/-- Writing to an awaiter what is not `m_registered`. -/
theorem registrations_modify {f : IoAwaiter κ → IoAwaiter κ}
    (hf : ∀ w, (f w).registered = w.registered) :
    registrations (s.modify a f) = registrations s := by
  funext b
  show ((Function.update s.awaiter a _ b).registered, s.added b) = _
  rw [Function.update_apply]
  split
  · rename_i hb
    rw [hf, hb]
    rfl
  · rfl

omit [DecidableEq α] [DecidableEq η] in
theorem registrations_push (owner : Option α) :
    registrations (s.push h owner) = registrations s := rfl

omit [DecidableEq η] in
theorem registrations_enqueue : registrations (s.enqueue a) = registrations s := by
  unfold enqueue
  split
  · rfl
  · split
    · rw [registrations_push, registrations_modify]
      exact fun _ => rfl
    · rfl

omit [DecidableEq η] in
theorem registrations_enqueueAll (tokens : List α) :
    registrations (s.enqueueAll tokens) = registrations s := by
  unfold enqueueAll
  induction tokens generalizing s with
  | nil => rfl
  | cons a tokens ih => rw [List.foldl_cons, ih, registrations_enqueue]

theorem registrations_deregister :
    registrations (s.deregister setup a) = withdraw setup.handle (registrations s) a := by
  unfold deregister withdraw registrations
  by_cases hregistered : (s.awaiter a).registered = true
  · rw [if_pos hregistered, if_pos hregistered]
    funext b
    refine Prod.ext ?_ rfl
    show (Function.update s.awaiter a _ b).registered = _
    rw [Function.update_apply]
    split
    · rfl
    · rfl
  · rw [if_neg hregistered, if_neg hregistered]

/-- `on_cancel` withdraws the registration, unless it was called before. -/
theorem registrations_onCancel :
    registrations (s.onCancel setup a)
      = if (s.awaiter a).cancelled then registrations s
        else withdraw setup.handle (registrations s) a := by
  unfold onCancel
  split
  · rfl
  · rw [registrations_enqueue, registrations_deregister, registrations_modify]
    exact fun _ => rfl

theorem registrations_awaitResume :
    registrations (s.awaitResume setup a) = withdraw setup.handle (registrations s) a := by
  rw [awaitResume, registrations_modify, registrations_deregister]
  exact fun _ => rfl

variable [DecidableEq τ] [DecidableEq κ]

/-- A `co_await` that suspends, as the registrations see it. -/
theorem registrations_suspends {add : Option AddError} (hready : s.awaitReady setup a = false) :
    registrations (s.coAwait setup a h add)
      = match add with
        | some _ => registrations s
        | none => Function.update (registrations s) a (true, true) := by
  have hsuspend : registrations (s.suspend a h) = registrations s := by
    funext b
    show ((Function.update s.awaiter a _ b).registered, s.added b) = _
    rw [Function.update_apply]
    split
    · rename_i hb
      rw [hb]
      rfl
    · rfl
  rw [coAwait, if_neg (by simp [hready])]
  cases add with
  | some err =>
    show registrations ((s.suspend a h).refuse a h err) = _
    rw [refuse, registrations_push, registrations_modify, hsuspend]
    exact fun _ => rfl
  | none =>
    show registrations (((s.suspend a h).register a).armToken setup a) = _
    have hregister : registrations ((s.suspend a h).register a)
        = Function.update (registrations s) a (true, true) := by
      rw [← hsuspend]
      funext b
      show ((Function.update (s.suspend a h).awaiter a _ b).registered,
        Function.update (s.suspend a h).added a true b) = _
      rw [Function.update_apply, Function.update_apply, Function.update_apply]
      split
      · rfl
      · rfl
    unfold armToken
    split
    · rename_i t htoken
      have hstop : (s.stop t).stopped = false := by
        simpa [awaitReady, stopRequested, htoken] using hready
      have harm : (((s.suspend a h).register a).stop t).arm a (some a)
          = (((s.stop t).arm a (some a)).1, false) := by
        show (s.stop t).arm a (some a) = _
        simp [StopState.arm, hstop]
      rw [harm]
      exact hregister
    · exact hregister

omit [DecidableEq κ] in
/-- A turn of `request_stop`. -/
theorem registrations_turn {t : τ} (hdraining : s.draining = some t) :
    registrations (s.turn setup t)
      = withdrawn setup.handle (registrations s) (cancelling s) := by
  unfold cancelling turn
  rw [hdraining]
  dsimp only
  cases (s.stop t).unlinkHead with
  | none => rfl
  | some p =>
    obtain ⟨cb, stop⟩ := p
    dsimp only
    cases stop.fn cb with
    | none => rfl
    | some a =>
      dsimp only
      rw [registrations_onCancel]
      show (if (s.awaiter a).cancelled = true then registrations s
        else withdraw setup.handle (registrations s) a) = _
      by_cases hcancelled : (s.awaiter a).cancelled = true
      · rw [if_pos hcancelled, Option.filter_some, hcancelled]
        rfl
      · rw [if_neg hcancelled, Option.filter_some]
        simp only [hcancelled, Bool.not_false, if_true]
        rfl

omit [DecidableEq τ] in
/-- The loop resumes the coroutine at the front of the queue. -/
theorem registrations_resumeFront {owner : Option α} {rest : List (κ × Option α)}
    (hready : s.ready = (h, owner) :: rest) :
    registrations (s.resumeFront setup h owner rest)
      = withdrawn setup.handle (registrations s) (resuming s) := by
  have hcount : registrations ((s.popFront h rest).countResumption owner) = registrations s := by
    unfold countResumption
    split
    · rw [registrations_modify]
      · rfl
      · exact fun _ => rfl
    · rfl
  have hsuspended : ((s.popFront h rest).countResumption owner).suspendedIn = s.suspendedIn := by
    unfold countResumption
    split
    · rfl
    · rfl
  unfold resumeFront goOn resuming
  rw [hsuspended, hready]
  show _ = withdrawn setup.handle (registrations s) (s.suspendedIn h)
  cases s.suspendedIn h with
  | none => exact hcount
  | some a =>
    dsimp only
    rw [registrations_awaitResume]
    show withdraw _ (registrations ((s.popFront h rest).countResumption owner)) a = _
    rw [hcount]
    rfl

/-- The awaiter whose registration an event ends. -/
def ending (s : Executor α τ κ) : Event α τ κ → Option α
  | .turn => cancelling s
  | .resume => resuming s
  | _ => none

/-- **What an event does to the registrations**, unless it is a `co_await`: it ends one at most. -/
theorem registrations_step {event : Event α τ κ} (hstep : s.step setup event = some s')
    (hevent : ∀ a h add, event ≠ .coAwait a h add) :
    registrations s' = withdrawn setup.handle (registrations s) (ending s event) := by
  cases step_cases hstep with
  | turn hdraining => exact registrations_turn hdraining
  | coAwait => exact absurd rfl (hevent _ _ _)
  | trigger => exact registrations_enqueueAll _
  | requestStop =>
    show registrations (s.requestStop _) = registrations s
    unfold requestStop
    split
    · rfl
    · rfl
  | resume hready => exact registrations_resumeFront hready
  | schedule => rfl
  | @destroy a _ =>
    show registrations (s.destroy setup a) = registrations s
    unfold destroy
    rw [registrations_modify]
    · split
      · rfl
      · rfl
    · exact fun _ => rfl

end Executor
