import SapCore.EpollReactor
import SapCore.ExecutorReactor

/-!
# The executor over `epoll`

The executor calls the reactor over `epoll`, and `wait` reports what is on the interest list of the
kernel. As long as what was added can be removed – no descriptor is closed under an awaiter that
waits for it, and `epoll_ctl` does not fail to delete – the interest list is the registered
awaiters, each under its address, where no other was made since (`Wired`). So every run of the two
is a run of the executor as `Executor` has it, and what is proved of the executor holds of it.

The result of `remove` is ignored in the source, as it is here.
-/

/-- **An executor and its reactor.** -/
structure EpollExecutor (α τ κ η : Type) where
  executor : Executor α τ κ
  reactor : EpollReactor η
  /-- The awaiter that was made last at an address. -/
  occupant : UInt64 → Option α

namespace EpollExecutor

variable {α τ κ η : Type}

/-- The error of `Reactor::add`, with what `strerror` says. -/
def addError (reason : List Char) : AddError :=
  ⟨"epoll_ctl(ADD) failed: ".toList ++ reason, by simp⟩

/-- What happens, and how the kernel takes it: `fails` is whether `epoll_ctl` fails for a reason of
its own. -/
inductive Label (α τ κ η : Type) where
  /-- A coroutine awaits an awaiter. -/
  | coAwait (a : α) (h : κ) (fails : Bool) (reason : List Char)
  /-- `epoll_wait` returns these events, and at the addresses that are the tokens of the triggers
  are these awaiters. -/
  | wait (events : List (η × UInt32)) (tokens : List α)
  | requestStop (t : τ)
  /-- A turn of the loop of `request_stop`. -/
  | turn (fails : Bool)
  /-- The loop resumes the handle at the front of `m_ready`. -/
  | resume (fails : Bool)
  | schedule (h : κ)
  | destroy (a : α)
  /-- `wake`, by any thread. -/
  | wake
  /-- A descriptor is closed, and the kernel takes it off the list. -/
  | close (h : η)

section Machine

variable [DecidableEq α] [DecidableEq τ] [DecidableEq κ] [DecidableEq η]
variable (wiring : Wiring α τ η)

/-- The call of `remove` for an awaiter, if it is registered. -/
def unlink (s : EpollExecutor α τ κ η) (a : Option α) (fails : Bool) : EpollReactor η :=
  match a with
  | some a =>
    if (s.executor.awaiter a).registered then (s.reactor.remove (wiring.handle a) fails).2
    else s.reactor
  | none => s.reactor

/-- `co_await` of an awaiter that was made. -/
def await (s : EpollExecutor α τ κ η) (a : α) (h : κ) (fails : Bool) (reason : List Char) :
    Option (EpollExecutor α τ κ η) :=
  if s.executor.awaitReady wiring.toSetup a then
    (s.executor.step wiring.toSetup (.coAwait a h none)).map
      (⟨·, s.unlink wiring (some a) fails, s.occupant⟩)
  else
    let r := s.reactor.add (wiring.handle a) (wiring.interest a) (wiring.address a) fails
    (s.executor.step wiring.toSetup (.coAwait a h (r.1.map (fun _ => addError reason)))).map
      (⟨·, r.2, s.occupant⟩)

/-- **One step.** An awaiter is made where it is awaited. A batch of triggers is given to the
awaiters at the addresses in it, and the kernel reports what is on the interest list. -/
def step (s : EpollExecutor α τ κ η) : Label α τ κ η → Option (EpollExecutor α τ κ η)
  | .coAwait a h fails reason =>
    await wiring { s with occupant := wiring.seat s.occupant a } a h fails reason
  | .wait events tokens =>
    if s.executor.draining = none ∧ events.length ≤ maxEventsPerWait
        ∧ (events.all (fun e => (s.reactor.interestList e.1).isSome)) = true
        ∧ tokens.map some = (s.reactor.wait events).2.map (fun t => s.occupant t.2.userToken) then
      (s.executor.dispatch tokens).map (⟨·, (s.reactor.wait events).1, s.occupant⟩)
    else none
  | .requestStop t =>
    (s.executor.step wiring.toSetup (.requestStop t)).map (⟨·, s.reactor, s.occupant⟩)
  | .turn fails =>
    (s.executor.step wiring.toSetup .turn).map
      (⟨·, s.unlink wiring s.executor.cancelling fails, s.occupant⟩)
  | .resume fails =>
    (s.executor.step wiring.toSetup .resume).map
      (⟨·, s.unlink wiring s.executor.resuming fails, s.occupant⟩)
  | .schedule h =>
    (s.executor.step wiring.toSetup (.schedule h)).map (⟨·, s.reactor, s.occupant⟩)
  | .destroy a =>
    (s.executor.step wiring.toSetup (.destroy a)).map (⟨·, s.reactor, s.occupant⟩)
  | .wake => some { s with reactor := s.reactor.wake }
  | .close h =>
    some { s with
      reactor := { s.reactor with interestList := Function.update s.reactor.interestList h none } }

/-- A new executor, on a new reactor. -/
def machine (wakeFd : η) : Machine (EpollExecutor α τ κ η) (Label α τ κ η) :=
  ⟨⟨.new, .create wakeFd, fun _ => none⟩, step wiring⟩

end Machine

/-! ## The interest list is the registered awaiters -/

open Executor

variable [DecidableEq α] [DecidableEq η]

/-- **The interest list is the registered awaiters**, each with its interest and under its address,
where it still is, and the eventfd of the reactor. -/
structure Wired (wiring : Wiring α τ η) (occupant : UInt64 → Option α) (reg : α → Bool × Bool)
    (r : EpollReactor η) : Prop where
  wake : r.interestList r.wakeFd = some (epollIn, wakeToken)
  other : ∀ a, (reg a).1 = true → wiring.handle a ≠ r.wakeFd
  listed : ∀ a, (reg a).1 = true →
    r.interestList (wiring.handle a) = some (toEpoll (wiring.interest a), wiring.address a)
  owned : ∀ h ev, h ≠ r.wakeFd → r.interestList h = some ev →
    ∃ a, (reg a).1 = true ∧ wiring.handle a = h
  added : ∀ a, (reg a).1 = true → (reg a).2 = true
  seated : ∀ a, (reg a).1 = true → occupant (wiring.address a) = some a

namespace Wired

variable {wiring : Wiring α τ η} {occupant : UInt64 → Option α} {reg : α → Bool × Bool}
  {r : EpollReactor η}

omit [DecidableEq α] in
theorem create (wakeFd : η) :
    Wired wiring occupant (fun _ => (false, false)) (.create wakeFd) where
  wake := if_pos rfl
  other _ h := by cases h
  listed _ h := by cases h
  owned h ev hh hev := absurd ((if_neg hh).symm.trans hev) (by simp)
  added _ h := by cases h
  seated _ h := by cases h

variable (hr : Wired wiring occupant reg r)
include hr

omit [DecidableEq α] [DecidableEq η] in
/-- Two awaiters that are registered wait for different handles. -/
theorem handle_injective {a b : α} (ha : (reg a).1 = true) (hb : (reg b).1 = true)
    (hhandle : wiring.handle a = wiring.handle b) : a = b := by
  have hentry := hr.listed a ha
  rw [hhandle, hr.listed b hb] at hentry
  have haddress : wiring.address b = wiring.address a :=
    congrArg Prod.snd (Option.some_injective _ hentry)
  have hseat := hr.seated a ha
  rw [← haddress, hr.seated b hb] at hseat
  exact (Option.some.inj hseat).symm

omit [DecidableEq α] [DecidableEq η] in
/-- What is on the list beside the eventfd is the entry of a registered awaiter. -/
theorem entry {h : η} {ev : UInt32 × UInt64} (hh : h ≠ r.wakeFd)
    (hev : r.interestList h = some ev) :
    ∃ a, (reg a).1 = true ∧ wiring.handle a = h
      ∧ ev = (toEpoll (wiring.interest a), wiring.address a) := by
  obtain ⟨a, ha, rfl⟩ := hr.owned h ev hh hev
  rw [hr.listed a ha] at hev
  exact ⟨a, ha, rfl, (Option.some_injective _ hev).symm⟩

omit [DecidableEq α] [DecidableEq η] in
/-- An awaiter is made where none is registered. -/
theorem seat {a : α} (hfree : ∀ b, (reg b).1 = true → wiring.address b ≠ wiring.address a) :
    Wired wiring (wiring.seat occupant a) reg r :=
  { hr with seated := fun b hb => (seat_of_ne (hfree b hb)).trans (hr.seated b hb) }

/-- **An awaiter that is refused is not on the list**, and one that is taken is. -/
theorem add {a : α} (ha : (reg a).1 = false) (hseat : occupant (wiring.address a) = some a)
    (hwake : wiring.handle a ≠ r.wakeFd) (fails : Bool) :
    (∃ e, r.add (wiring.handle a) (wiring.interest a) (wiring.address a) fails = (some e, r))
      ∨ ∃ r', r.add (wiring.handle a) (wiring.interest a) (wiring.address a) fails = (none, r')
        ∧ Wired wiring occupant (Function.update reg a (true, true)) r' := by
  unfold EpollReactor.add EpollReactor.epollCtl
  cases fails with
  | true => exact .inl ⟨_, rfl⟩
  | false =>
    cases hentry : r.interestList (wiring.handle a) with
    | some ev => exact .inl ⟨_, rfl⟩
    | none =>
      refine .inr ⟨_, rfl, ?_⟩
      -- nobody who is registered waits for this handle
      have hfree : ∀ b, (reg b).1 = true → wiring.handle b ≠ wiring.handle a := by
        intro b hb heq
        have hlisted := hr.listed b hb
        rw [heq, hentry] at hlisted
        cases hlisted
      refine ⟨?_, fun b hb => ?_, fun b hb => ?_, fun h ev hh hev => ?_, fun b hb => ?_,
        fun b hb => ?_⟩
      · exact (Function.update_of_ne hwake.symm _ _).trans hr.wake
      · rw [Function.update_apply] at hb
        split at hb
        · rename_i hba
          rw [hba]
          exact hwake
        · exact hr.other b hb
      · rw [Function.update_apply] at hb
        split at hb
        · rename_i hba
          rw [hba]
          exact Function.update_self _ _ _
        · exact (Function.update_of_ne (hfree b hb) _ _).trans (hr.listed b hb)
      · by_cases hha : h = wiring.handle a
        · exact ⟨a, by rw [Function.update_self], hha.symm⟩
        · have hev' : r.interestList h = some ev :=
            (Function.update_of_ne hha _ _).symm.trans hev
          obtain ⟨b, hb, hbh⟩ := hr.owned h ev hh hev'
          refine ⟨b, ?_, hbh⟩
          rw [Function.update_of_ne (fun hba => ?_)]
          · exact hb
          · rw [hba, ha] at hb
            cases hb
      · rw [Function.update_apply] at hb ⊢
        split
        · rfl
        · rename_i hba
          rw [if_neg hba] at hb
          exact hr.added b hb
      · rw [Function.update_apply] at hb
        split at hb
        · rename_i hba
          rw [hba]
          exact hseat
        · exact hr.seated b hb

/-- **An awaiter is removed**: its entry is gone, and no other. -/
theorem remove {a : α} (ha : (reg a).1 = true) :
    Wired wiring occupant (withdraw wiring.handle reg a)
      (r.remove (wiring.handle a) false).2 := by
  have hlisted := hr.listed a ha
  have hremoved : (r.remove (wiring.handle a) false).2
      = { r with interestList := Function.update r.interestList (wiring.handle a) none } := by
    unfold EpollReactor.remove EpollReactor.epollCtl
    rw [hlisted]
    rfl
  have hreg : ∀ b, (withdraw wiring.handle reg a b).1 = true → b ≠ a ∧ (reg b).1 = true :=
    fun b hb => (withdraw_registered ha).mp hb
  have hfree : ∀ b, b ≠ a → (reg b).1 = true → wiring.handle b ≠ wiring.handle a :=
    fun b hba hb heq => hba (hr.handle_injective hb ha heq)
  rw [hremoved]
  refine ⟨?_, fun b hb => ?_, fun b hb => ?_, fun h ev hh hev => ?_, fun b hb => ?_,
    fun b hb => hr.seated b (hreg b hb).2⟩
  · exact (Function.update_of_ne (hr.other a ha).symm _ _).trans hr.wake
  · exact hr.other b (hreg b hb).2
  · obtain ⟨hba, hb⟩ := hreg b hb
    exact (Function.update_of_ne (hfree b hba hb) _ _).trans (hr.listed b hb)
  · have hha : h ≠ wiring.handle a := by
      rintro rfl
      exact absurd ((Function.update_self _ _ _).symm.trans hev) (by simp)
    have hev' : r.interestList h = some ev := (Function.update_of_ne hha _ _).symm.trans hev
    obtain ⟨b, hb, hbh⟩ := hr.owned h ev hh hev'
    have hba : b ≠ a := fun hba => hha (by rw [← hbh, hba])
    exact ⟨b, (withdraw_registered ha).mpr ⟨hba, hb⟩, hbh⟩
  · obtain ⟨hba, hb⟩ := hreg b hb
    rw [withdraw, if_pos ha]
    simp [hfree b hba hb, hr.added b hb]

omit [DecidableEq α] in
/-- A descriptor is closed that no registered awaiter waits for. -/
theorem close {h : η} (hwake : h ≠ r.wakeFd)
    (hfree : ∀ a, (reg a).1 = true → wiring.handle a ≠ h) :
    Wired wiring occupant reg
      { r with interestList := Function.update r.interestList h none } where
  wake := (Function.update_of_ne hwake.symm _ _).trans hr.wake
  other := hr.other
  listed a ha := (Function.update_of_ne (hfree a ha) _ _).trans (hr.listed a ha)
  owned k ev hk hev := by
    have hkh : k ≠ h := by
      rintro rfl
      exact absurd ((Function.update_self _ _ _).symm.trans hev) (by simp)
    exact hr.owned k ev hk ((Function.update_of_ne hkh _ _).symm.trans hev)
  added := hr.added
  seated := hr.seated

omit [DecidableEq α] [DecidableEq η] in
/-- **What `wait` reports**: the list stays as it is, and every token is an address at which there
is a registered awaiter. -/
theorem wait (events : List (η × UInt32)) :
    Wired wiring occupant reg (r.wait events).1
      ∧ ∀ t ∈ (r.wait events).2, ∃ a, (reg a).1 = true ∧ occupant t.2.userToken = some a := by
  refine List.foldlRecOn (motive := fun acc : EpollReactor η × List (η × Trigger) =>
    Wired wiring occupant reg acc.1
      ∧ ∀ t ∈ acc.2, ∃ a, (reg a).1 = true ∧ occupant t.2.userToken = some a) _ _
    ⟨hr, fun t ht => absurd ht List.not_mem_nil⟩ ?_
  rintro acc ⟨hacc, htokens⟩ event -
  unfold EpollReactor.dispatch
  split
  · exact ⟨hacc, htokens⟩
  · rename_i ev data hentry
    split
    · exact ⟨⟨hacc.wake, hacc.other, hacc.listed, hacc.owned, hacc.added, hacc.seated⟩, htokens⟩
    · rename_i hdata
      refine ⟨hacc, fun t ht => ?_⟩
      obtain ht | ht := List.mem_append.mp ht
      · exact htokens t ht
      · obtain rfl := List.mem_singleton.mp ht
        have hne : event.1 ≠ acc.1.wakeFd := fun heq => by
          rw [heq, hacc.wake] at hentry
          cases hentry
          exact hdata rfl
        obtain ⟨a, ha, -, heq⟩ := hacc.entry hne hentry
        have hdata : data = wiring.address a := congrArg Prod.snd heq
        exact ⟨a, ha, by rw [hdata]; exact hacc.seated a ha⟩

end Wired

/-! ## Steps -/

variable [DecidableEq τ] [DecidableEq κ]
variable {wiring : Wiring α τ η} {wakeFd : η} {s s' : EpollExecutor α τ κ η}

omit [DecidableEq τ] [DecidableEq κ] in
/-- The call of `remove` withdraws a registration on both sides. -/
theorem Wired.unlink (h : Wired wiring s.occupant (registrations s.executor) s.reactor) (a : α) :
    Wired wiring s.occupant (withdraw wiring.handle (registrations s.executor) a)
      (s.unlink wiring (some a) false) := by
  unfold EpollExecutor.unlink
  dsimp only
  split
  · rename_i hregistered
    exact h.remove hregistered
  · rename_i hregistered
    rw [withdraw_of_not_registered (by simpa [registrations] using hregistered)]
    exact h

omit [DecidableEq τ] [DecidableEq κ] in
theorem Wired.unlink_withdrawn (h : Wired wiring s.occupant (registrations s.executor) s.reactor)
    (a : Option α) :
    Wired wiring s.occupant (withdrawn wiring.handle (registrations s.executor) a)
      (s.unlink wiring a false) := by
  cases a with
  | none => exact h
  | some a => exact h.unlink a

omit [DecidableEq τ] [DecidableEq κ] in
/-- No call is made for an awaiter that is not registered. -/
theorem Wired.unlink_of_not_registered
    (h : Wired wiring s.occupant (registrations s.executor) s.reactor) {a : α}
    (ha : (registrations s.executor a).1 = false) (fails : Bool) :
    Wired wiring s.occupant (withdraw wiring.handle (registrations s.executor) a)
      (s.unlink wiring (some a) fails) := by
  rw [withdraw_of_not_registered ha]
  unfold EpollExecutor.unlink
  dsimp only
  rw [if_neg (by simpa [registrations] using ha)]
  exact h

/-- **A careful step.** Every awaiter is awaited at most once, not for the eventfd of the reactor,
and not at the address of one that is registered; a coroutine that is scheduled neither awaits nor
is suspended; what is registered can be removed; and no descriptor is closed for which a registered
awaiter waits. -/
def Careful (wiring : Wiring α τ η) (s : EpollExecutor α τ κ η) : Label α τ κ η → Prop
  | .coAwait a h _ _ => ((s.executor.awaiter a).phase = .idle ∧ (h, none) ∉ s.executor.ready)
    ∧ wiring.handle a ≠ s.reactor.wakeFd
    ∧ ∀ b, (s.executor.awaiter b).registered = true → wiring.address b ≠ wiring.address a
  | .turn fails => fails = false
  | .resume fails => fails = false
  | .schedule h => s.executor.suspendedIn h = none
  | .close h => h ≠ s.reactor.wakeFd
    ∧ ∀ a, (s.executor.awaiter a).registered = true → wiring.handle a ≠ h
  | _ => True

/-- **What holds of the two**: the interest list is the registered awaiters, and the executor is in
a state that it reaches by itself. -/
structure Inv (wiring : Wiring α τ η) (s : EpollExecutor α τ κ η) : Prop where
  wired : Wired wiring s.occupant (registrations s.executor) s.reactor
  reachable : (Executor.machine wiring.toSetup).ReachableBy Executor.AwaitedOnce s.executor

/-- A `co_await` is a step of the executor, whatever the reactor says. -/
theorem Inv.await (hs : Inv wiring s) {a : α} {h : κ} {fails : Bool} {reason : List Char}
    (honce : (s.executor.awaiter a).phase = .idle ∧ (h, none) ∉ s.executor.ready)
    (hwake : wiring.handle a ≠ s.reactor.wakeFd)
    (hseat : s.occupant (wiring.address a) = some a)
    (hstep : s.await wiring a h fails reason = some s') : Inv wiring s' := by
  have hbooks := (Executor.inv_of_awaitedOnce hs.reachable).books
  have hnone := (hbooks.fits a).ok.idle honce.1
  have hregistered : (registrations s.executor a).1 = false :=
    ((hbooks.fits a).ok.pristine hnone).2.2.1
  rw [EpollExecutor.await] at hstep
  split at hstep
  · rename_i hready
    obtain ⟨e, he, rfl⟩ := Option.map_eq_some_iff.mp hstep
    refine ⟨?_, hs.reachable.step (by exact honce) he⟩
    cases Executor.step_cases he
    rw [Executor.coAwait, if_pos hready, registrations_awaitResume]
    exact hs.wired.unlink_of_not_registered hregistered fails
  · rename_i hready
    rw [Bool.not_eq_true] at hready
    obtain ⟨e, he, rfl⟩ := Option.map_eq_some_iff.mp hstep
    refine ⟨?_, hs.reachable.step (by exact honce) he⟩
    cases Executor.step_cases he
    rw [registrations_suspends hready]
    obtain ⟨err, hadd⟩ | ⟨r, hadd, hwired⟩ := hs.wired.add hregistered hseat hwake fails
    · rw [hadd]
      exact hs.wired
    · rw [hadd]
      exact hwired

/-- An event of the executor in which the reactor does what it is asked for. -/
theorem Inv.event (hs : Inv wiring s) {event : Executor.Event α τ κ} {r : EpollReactor η}
    (hstep : (s.executor.step wiring.toSetup event).map (⟨·, r, s.occupant⟩) = some s')
    (honce : Executor.AwaitedOnce s.executor event)
    (hevent : ∀ a h add, event ≠ .coAwait a h add)
    (hr : Wired wiring s.occupant (withdrawn wiring.handle (registrations s.executor)
      (ending s.executor event)) r) : Inv wiring s' := by
  obtain ⟨e, he, rfl⟩ := Option.map_eq_some_iff.mp hstep
  refine ⟨?_, hs.reachable.step honce he⟩
  rw [registrations_step he hevent]
  exact hr

theorem Inv.step (hs : Inv wiring s) {label : Label α τ κ η} (hcareful : Careful wiring s label)
    (hstep : s.step wiring label = some s') : Inv wiring s' := by
  cases label with
  | coAwait a h fails reason =>
    obtain ⟨honce, hwake, hfree⟩ := hcareful
    have hmade : Inv wiring { s with occupant := wiring.seat s.occupant a } :=
      ⟨hs.wired.seat hfree, hs.reachable⟩
    exact hmade.await honce hwake (Function.update_self _ _ _) hstep
  | wait events tokens =>
    rw [EpollExecutor.step, Option.ite_none_right_eq_some] at hstep
    obtain ⟨⟨hdraining, -, -, htokens⟩, hstep⟩ := hstep
    obtain ⟨e, hdispatch, rfl⟩ := Option.map_eq_some_iff.mp hstep
    obtain ⟨hwired, hreported⟩ := hs.wired.wait events
    -- the tokens are those of handles that were added
    have hadded : ∀ a ∈ tokens, s.executor.added a = true :=
      fun a ha => hs.wired.added a (forall_tokens htokens hreported a ha)
    refine ⟨?_, hs.reachable.step (a := .trigger tokens) trivial ?_⟩
    · rw [eq_enqueueAll_of_dispatch hdispatch, registrations_enqueueAll]
      exact hwired
    · show s.executor.step wiring.toSetup (.trigger tokens) = _
      unfold Executor.step
      rw [hdraining]
      exact (if_pos hadded).trans hdispatch
  | requestStop t => exact hs.event hstep (by exact trivial) (by simp) hs.wired
  | turn fails =>
    obtain rfl : fails = false := hcareful
    exact hs.event hstep (by exact trivial) (by simp) (hs.wired.unlink_withdrawn _)
  | resume fails =>
    obtain rfl : fails = false := hcareful
    exact hs.event hstep (by exact trivial) (by simp) (hs.wired.unlink_withdrawn _)
  | schedule h => exact hs.event hstep (by exact hcareful) (by simp) hs.wired
  | destroy a => exact hs.event hstep (by exact trivial) (by simp) hs.wired
  | wake =>
    cases hstep
    have hwired := hs.wired
    exact ⟨⟨hwired.wake, hwired.other, hwired.listed, hwired.owned, hwired.added, hwired.seated⟩,
      hs.reachable⟩
  | close h =>
    cases hstep
    exact ⟨hs.wired.close hcareful.1 hcareful.2, hs.reachable⟩

theorem inv_of_reachable (h : (machine wiring wakeFd).ReachableBy (Careful wiring) s) :
    Inv wiring s :=
  h.invariant ⟨Wired.create wakeFd, .init⟩ (fun _ _ _ _ hs hcareful hstep => hs.step hcareful hstep)

/-! ## The two together -/

/-- **The executor over `epoll` is the executor.** In every careful run of the two:

* the executor is in a state of a run of its own, in which every awaiter is awaited once;
* the interest list is the eventfd and, for each registered awaiter, its handle with its interest
  and its address;
* `m_pending_io` is the number of handles on the list beside the eventfd, so that `run_until` waits
  exactly if there is one to wait for;
* whatever events `epoll_wait` returns, the tokens of the triggers are addresses at which there are
  awaiters that are registered and suspended and have their continuation; so the loop over the
  triggers queues no null handle. -/
theorem refines_executor (h : (machine wiring wakeFd).ReachableBy (Careful wiring) s) :
    (Executor.machine wiring.toSetup).ReachableBy Executor.AwaitedOnce s.executor
      ∧ (∀ k ev, s.reactor.interestList k = some ev ↔
        (k = s.reactor.wakeFd ∧ ev = (epollIn, wakeToken))
          ∨ ∃ a, (s.executor.awaiter a).registered = true ∧ wiring.handle a = k
            ∧ ev = (toEpoll (wiring.interest a), wiring.address a))
      ∧ (∃ handles : Finset η,
        (∀ k, k ∈ handles ↔ k ≠ s.reactor.wakeFd ∧ (s.reactor.interestList k).isSome)
          ∧ s.executor.pendingIo = handles.card)
      ∧ ∀ events, ∃ tokens : List α,
        tokens.map some = (s.reactor.wait events).2.map (fun t => s.occupant t.2.userToken)
          ∧ (∀ a ∈ tokens, (s.executor.awaiter a).registered = true
            ∧ (s.executor.awaiter a).phase = .suspended
            ∧ (s.executor.awaiter a).continuation ≠ none)
          ∧ (s.executor.dispatch tokens).isSome = true := by
  have hs := inv_of_reachable h
  have hbooks := (Executor.inv_of_awaitedOnce hs.reachable).books
  refine ⟨hs.reachable, fun k ev => ⟨fun hev => ?_, ?_⟩, ?_, fun events => ?_⟩
  · by_cases hk : k = s.reactor.wakeFd
    · rw [hk, hs.wired.wake] at hev
      exact .inl ⟨hk, (Option.some_injective _ hev).symm⟩
    · exact .inr (hs.wired.entry hk hev)
  · rintro (⟨rfl, rfl⟩ | ⟨a, ha, rfl, rfl⟩)
    · exact hs.wired.wake
    · exact hs.wired.listed a ha
  · obtain ⟨registered, hmem, hcount⟩ := hbooks.count
    refine ⟨registered.image wiring.handle, fun k => ?_, ?_⟩
    · rw [Finset.mem_image, Option.isSome_iff_exists]
      constructor
      · rintro ⟨a, ha, rfl⟩
        have hregistered := (hmem a).mp ha
        exact ⟨hs.wired.other a hregistered, _, hs.wired.listed a hregistered⟩
      · rintro ⟨hk, ev, hev⟩
        obtain ⟨a, ha, hak, -⟩ := hs.wired.entry hk hev
        exact ⟨a, (hmem a).mpr ha, hak⟩
    · rw [hcount, Finset.card_image_of_injOn]
      intro a ha b hb heq
      exact hs.wired.handle_injective ((hmem a).mp ha) ((hmem b).mp hb) heq
  · obtain ⟨tokens, htokens, hall⟩ := exists_tokens (hs.wired.wait events).2
    have hsuspended : ∀ a ∈ tokens, (s.executor.awaiter a).registered = true
        ∧ (s.executor.awaiter a).phase = .suspended
        ∧ (s.executor.awaiter a).continuation ≠ none := fun a ha => by
      have hregistered : (s.executor.awaiter a).registered = true := hall a ha
      have hphase := (hbooks.fits a).ok.registered hregistered
      exact ⟨hregistered, hphase, hbooks.continued a hphase⟩
    refine ⟨tokens, htokens, hsuspended, ?_⟩
    rw [Executor.dispatch_eq (fun a ha => (hsuspended a ha).2.2)]
    rfl

/-- Four awaiters for the descriptors 5 and 6. All but the second are at one address, where one is
made after another. -/
def twoHandles : Wiring (Fin 4) Unit ℕ where
  handle a := if a = 1 then 6 else 5
  token _ := none
  interest _ := .readable
  address a := if a = 1 then 32 else 16

/-- Two coroutines await; the first is reported, resumed and awaits again. -/
def readTwice : List (Label (Fin 4) Unit ℕ ℕ) :=
  [.coAwait 0 10 false [], .coAwait 1 11 false [], .wait [(5, epollIn)] [0], .resume false,
    .destroy 0, .coAwait 2 10 false []]

/-- Then both descriptors are on the list, and what is reported of them are the awaiters that are
suspended. -/
theorem refines_executor_readTwice :
    ∃ s : EpollExecutor (Fin 4) Unit ℕ ℕ,
      (machine twoHandles 3).run (machine twoHandles 3).init readTwice = some s
        ∧ s.executor.pendingIo = 2
        ∧ (∃ handles : Finset ℕ,
          (∀ k, k ∈ handles ↔ k ≠ s.reactor.wakeFd ∧ (s.reactor.interestList k).isSome)
            ∧ s.executor.pendingIo = handles.card)
        ∧ (s.reactor.wait [(5, epollIn), (6, epollIn)]).2.map (fun t => t.2.userToken) = [16, 32]
        ∧ ∃ tokens : List (Fin 4), tokens.map some = [some 2, some 1]
          ∧ ∀ a ∈ tokens, (s.executor.awaiter a).phase = .suspended := by
  have hawait₁ := Machine.ReachableBy.step (a := .coAwait 0 10 false [])
    (M := machine (κ := ℕ) twoHandles 3) (C := Careful twoHandles) .init
    (by exact ⟨⟨rfl, by simp [machine, Executor.new]⟩, by decide, by decide⟩) rfl
  have hawait₂ := Machine.ReachableBy.step (a := .coAwait 1 11 false []) hawait₁
    (by exact ⟨⟨rfl, by decide⟩, by decide, by decide⟩) rfl
  have hwait := Machine.ReachableBy.step (a := .wait [(5, epollIn)] [0]) hawait₂
    (by exact trivial) rfl
  have hresume := Machine.ReachableBy.step (a := .resume false) hwait (by exact rfl) rfl
  have hdestroy := Machine.ReachableBy.step (a := .destroy 0) hresume (by exact trivial) rfl
  have hawait₃ := Machine.ReachableBy.step (a := .coAwait 2 10 false []) hdestroy
    (by exact ⟨⟨rfl, by decide⟩, by decide, by decide⟩) rfl
  obtain ⟨-, -, hcount, hreported⟩ := refines_executor hawait₃
  obtain ⟨tokens, htokens, hall, -⟩ := hreported [(5, epollIn), (6, epollIn)]
  exact ⟨_, rfl, rfl, hcount, rfl, tokens, htokens, fun a ha => (hall a ha).2.1⟩

end EpollExecutor
