import SapCore.ExecutorInvariant

/-!
# What an event does to an awaiter

An event leaves an awaiter as it is, or does one of a few things to it (`Touches`): its coroutine
is suspended in it, or goes on; a stop cancels it, or the reactor reports it; it is destroyed.
What is to be known of the flags of an awaiter after any event is read off these cases.

The first such fact is that no coroutine is forgotten. After every event, a coroutine that is
suspended in an awaiter is one whose awaiter is registered, or queued. Nothing is needed for this
but that a suspended awaiter has a continuation: what deregisters an awaiter queues it, or resumes
it.
-/

namespace Executor

variable {α τ κ η : Type} {setup : Setup α τ η} {s s' : Executor α τ κ} {a : α} {h : κ}

/-- An awaiter in which a coroutine was just suspended. -/
def suspended (w : IoAwaiter κ) (h : κ) : Option AddError → IoAwaiter κ
  | some err => { w with
      phase := .suspended
      continuation := some h
      addError := truncate err
      addFailed := true
      queued := true }
  | none => { w with phase := .suspended, continuation := some h, registered := true }

theorem suspended_phase (w : IoAwaiter κ) (h : κ) (add : Option AddError) :
    (suspended w h add).phase = .suspended := by
  cases add with
  | some err => rfl
  | none => rfl

/-- **What an event does to an awaiter**: it is left as it is or becomes another. -/
inductive Touches (setup : Setup α τ η) (s s' : Executor α τ κ) (b : α) :
    Event α τ κ → IoAwaiter κ → Prop
  | kept {event : Event α τ κ} (hevent : ∀ h add, event ≠ .coAwait b h add) :
      Touches setup s s' b event (s.awaiter b)
  | suspended {h : κ} {add : Option AddError} (hready : s.awaitReady setup b = false) :
      Touches setup s s' b (.coAwait b h add) (suspended (s.awaiter b) h add)
  | resumed {event : Event α τ κ} {n : ℕ}
      (hevent : ∀ h add, event = .coAwait b h add → s.awaitReady setup b = true)
      (hstop : s'.stop = s.stop) :
      Touches setup s s' b event { s.awaiter b with
        registered := false
        phase := .resumed (s.awaitResult setup b)
        resumptions := n }
  | counted {n : ℕ} : Touches setup s s' b .resume { s.awaiter b with resumptions := n }
  | cancelled : Touches setup s s' b .turn { s.awaiter b with
      cancelled := true
      registered := false
      queued := (s.awaiter b).queued || (s.awaiter b).continuation.isSome }
  | queued {tokens : List α} :
      Touches setup s s' b (.trigger tokens) { s.awaiter b with queued := true }
  | destroyed : Touches setup s s' b (.destroy b) { s.awaiter b with phase := .destroyed }

/-! ## The functions, as the awaiters see them -/

/-- What `await_resume` returns depends on the error and the flag of the awaiter and
on its token. -/
theorem awaitResult_congr (haddError : (s'.awaiter a).addError = (s.awaiter a).addError)
    (hcancelled : (s'.awaiter a).cancelled = (s.awaiter a).cancelled) (hstop : s'.stop = s.stop) :
    s'.awaitResult setup a = s.awaitResult setup a := by
  unfold awaitResult stopRequested
  rw [haddError, hcancelled, hstop]

variable [DecidableEq α]

/-- Queueing an awaiter. -/
theorem enqueue_awaiter (s : Executor α τ κ) (a b : α) :
    (s.enqueue a).awaiter b
      = if b = a ∧ (s.awaiter a).continuation ≠ none then { s.awaiter a with queued := true }
        else s.awaiter b := by
  unfold enqueue
  split
  · rename_i hqueued
    split
    · rename_i hand
      rw [hand.1, ← hqueued]
    · rfl
  · split
    · rename_i h hc
      show Function.update s.awaiter a _ b = _
      by_cases hb : b = a
      · subst hb
        simp [hc]
      · rw [Function.update_of_ne hb, if_neg (fun hand => hb hand.1)]
    · rename_i hc
      rw [if_neg (fun hand => hand.2 hc)]

/-- A batch of triggers. -/
theorem enqueueAll_awaiter (s : Executor α τ κ) (tokens : List α) (b : α) :
    (s.enqueueAll tokens).awaiter b
      = if b ∈ tokens ∧ (s.awaiter b).continuation ≠ none then { s.awaiter b with queued := true }
        else s.awaiter b := by
  unfold enqueueAll
  induction tokens generalizing s with
  | nil => simp
  | cons a tokens ih =>
    rw [List.foldl_cons, ih, enqueue_awaiter]
    by_cases hb : b = a
    · subst hb
      by_cases hc : (s.awaiter b).continuation = none
      · simp [hc]
      · simp [hc]
    · simp [hb]

theorem countResumption_awaiter (s : Executor α τ κ) (owner : Option α) (b : α) :
    ∃ n, (s.countResumption owner).awaiter b = { s.awaiter b with resumptions := n } := by
  unfold countResumption
  split
  · rename_i a
    show ∃ n, Function.update s.awaiter a _ b = _
    by_cases hb : b = a
    · subst hb
      rw [Function.update_self]
      exact ⟨_, rfl⟩
    · rw [Function.update_of_ne hb]
      exact ⟨_, rfl⟩
  · exact ⟨_, rfl⟩

theorem countResumption_popFront (s : Executor α τ κ) (h : κ) (owner : Option α)
    (rest : List (κ × Option α)) :
    (s.popFront h rest).countResumption owner = (s.countResumption owner).popFront h rest := by
  cases owner with
  | none => rfl
  | some a => rfl

theorem destroy_awaiter [DecidableEq τ] (s : Executor α τ κ) (a : α) :
    (s.destroy setup a).awaiter
      = Function.update s.awaiter a { s.awaiter a with phase := .destroyed } := by
  unfold destroy
  split
  · rfl
  · rfl

variable [DecidableEq η]

theorem onCancel_awaiter (hcancelled : (s.awaiter a).cancelled = false) (b : α) :
    (s.onCancel setup a).awaiter b
      = if b = a then { s.awaiter a with
          cancelled := true
          registered := false
          queued := (s.awaiter a).queued || (s.awaiter a).continuation.isSome }
        else s.awaiter b := by
  unfold onCancel
  rw [if_neg (by simp [hcancelled]), enqueue_awaiter, deregister_awaiter, deregister_awaiter,
    if_pos rfl, modify_awaiter_self]
  by_cases hb : b = a
  · subst hb
    cases hc : (s.awaiter b).continuation with
    | none => simp [hc]
    | some h => simp [hc]
  · simp [hb, modify_awaiter_of_ne]

/-- Arming changes no awaiter, where the stop was not requested. -/
theorem armToken_awaiter [DecidableEq τ] (hstop : s.stopRequested (setup.token a) = false) :
    (s.armToken setup a).awaiter = s.awaiter := by
  cases htoken : setup.token a with
  | none => simp [armToken, htoken]
  | some t =>
    rw [htoken] at hstop
    rw [armToken_of_not_stopped htoken hstop]
    rfl

theorem turn_awaiter [DecidableEq τ] (s : Executor α τ κ) (t : τ) (b : α) :
    ∃ w, (s.turn setup t).awaiter b = w ∧ Touches setup s s' b .turn w := by
  unfold turn
  split
  · split
    · rename_i stop _ _ a _
      cases hcancelled : (s.awaiter a).cancelled with
      | true =>
        unfold onCancel
        rw [if_pos (show ((s.setStop t stop).awaiter a).cancelled = true from hcancelled)]
        exact ⟨_, rfl, .kept nofun⟩
      | false =>
        rw [onCancel_awaiter (s := s.setStop t stop) hcancelled]
        split
        · rename_i hb
          subst hb
          exact ⟨_, rfl, .cancelled⟩
        · exact ⟨_, rfl, .kept nofun⟩
    · exact ⟨_, rfl, .kept nofun⟩
  · exact ⟨_, rfl, .kept nofun⟩

variable [DecidableEq κ]

/-- A coroutine leaves the awaiter in which it is suspended. -/
def leave (s : Executor α τ κ) (a : α) (h : κ) (result : AwaitResult) : Executor α τ κ :=
  { s with
    awaiter := Function.update s.awaiter a { s.awaiter a with phase := .resumed result }
    suspendedIn := Function.update s.suspendedIn h none }

theorem goOn_eq_leave (hin : s.suspendedIn h = some a) :
    s.goOn setup h = (s.deregister setup a).leave a h (s.awaitResult setup a) := by
  unfold goOn
  rw [hin]
  show (s.wake h).awaitResume setup a = _
  unfold awaitResume deregister
  rw [show (s.wake h).awaiter = s.awaiter from rfl]
  split
  · rfl
  · rfl

theorem goOn_popFront (s : Executor α τ κ) (h : κ) (rest : List (κ × Option α)) :
    (s.popFront h rest).goOn setup h = (s.goOn setup h).popFront h rest := by
  unfold goOn
  rw [show (s.popFront h rest).suspendedIn = s.suspendedIn from rfl]
  split
  · rename_i a hin
    unfold awaitResume deregister
    rw [show ((s.popFront h rest).wake h).awaiter = (s.wake h).awaiter from rfl]
    split
    · rfl
    · rfl
  · rfl

/-- It makes no difference when the entry is taken out of the queue. -/
theorem resumeFront_eq (s : Executor α τ κ) (h : κ) (owner : Option α)
    (rest : List (κ × Option α)) :
    s.resumeFront setup h owner rest
      = ((s.countResumption owner).goOn setup h).popFront h rest := by
  unfold resumeFront
  rw [countResumption_popFront, goOn_popFront]

theorem resumeFront_awaiter (s : Executor α τ κ) (h : κ) (owner : Option α)
    (rest : List (κ × Option α)) (b : α) :
    ∃ w, (s.resumeFront setup h owner rest).awaiter b = w
      ∧ Touches setup s (s.resumeFront setup h owner rest) b .resume w := by
  obtain ⟨n, hcount⟩ := countResumption_awaiter s owner b
  have hstop : (s.countResumption owner).stop = s.stop := by
    unfold countResumption
    split
    · rfl
    · rfl
  rw [resumeFront_eq]
  cases hin : (s.countResumption owner).suspendedIn h with
  | none =>
    unfold goOn
    rw [hin]
    exact ⟨_, hcount, .counted⟩
  | some a =>
    rw [goOn_eq_leave hin]
    show ∃ w, Function.update ((s.countResumption owner).deregister setup a).awaiter a _ b = w ∧ _
    by_cases hb : b = a
    · subst hb
      rw [Function.update_self, deregister_awaiter, if_pos rfl, hcount,
        awaitResult_congr (by rw [hcount]) (by rw [hcount]) hstop]
      exact ⟨_, rfl, .resumed nofun ((deregister_stop _ b).trans hstop)⟩
    · rw [Function.update_of_ne hb, deregister_awaiter, if_neg hb, hcount]
      exact ⟨_, rfl, .counted⟩

variable [DecidableEq τ]

theorem coAwait_awaiter (hready : s.awaitReady setup a = false) (add : Option AddError) :
    (s.coAwait setup a h add).awaiter
      = Function.update s.awaiter a (suspended (s.awaiter a) h add) := by
  unfold coAwait awaitSuspend
  rw [if_neg (by simp [hready])]
  cases add with
  | some err => simp [refuse, suspend, modify, push, suspended]
  | none =>
    dsimp only
    rw [armToken_awaiter (s := (s.suspend a h).register a) hready]
    simp [register, suspend, suspended]

/-! ## Every event -/

/-- **Every event does one of these things to an awaiter.** -/
theorem step_awaiter {event : Event α τ κ} (hstep : s.step setup event = some s') (b : α) :
    ∃ w, s'.awaiter b = w ∧ Touches setup s s' b event w := by
  cases step_cases hstep with
  | turn => exact turn_awaiter s _ b
  | @coAwait a h add =>
    have hother : b ≠ a → ∀ h' add', (.coAwait a h add : Event α τ κ) ≠ .coAwait b h' add' := by
      rintro hb _ _ ⟨⟩
      exact hb rfl
    cases hready : s.awaitReady setup a with
    | true =>
      unfold coAwait
      rw [if_pos hready]
      show ∃ w, Function.update (s.deregister setup a).awaiter a _ b = w ∧ _
      by_cases hb : b = a
      · subst hb
        rw [Function.update_self, deregister_awaiter, if_pos rfl]
        exact ⟨_, rfl, .resumed (fun _ _ _ => hready) (deregister_stop s b)⟩
      · rw [Function.update_of_ne hb, deregister_awaiter, if_neg hb]
        exact ⟨_, rfl, .kept (hother hb)⟩
    | false =>
      rw [coAwait_awaiter hready]
      by_cases hb : b = a
      · subst hb
        rw [Function.update_self]
        exact ⟨_, rfl, .suspended hready⟩
      · rw [Function.update_of_ne hb]
        exact ⟨_, rfl, .kept (hother hb)⟩
  | trigger =>
    rw [enqueueAll_awaiter]
    split
    · exact ⟨_, rfl, .queued⟩
    · exact ⟨_, rfl, .kept nofun⟩
  | requestStop =>
    unfold requestStop
    split
    · exact ⟨_, rfl, .kept nofun⟩
    · exact ⟨_, rfl, .kept nofun⟩
  | resume => exact resumeFront_awaiter s _ _ _ b
  | schedule => exact ⟨_, rfl, .kept nofun⟩
  | @destroy a =>
    rw [destroy_awaiter]
    by_cases hb : b = a
    · subst hb
      rw [Function.update_self]
      exact ⟨_, rfl, .destroyed⟩
    · rw [Function.update_of_ne hb]
      exact ⟨_, rfl, .kept nofun⟩

/-- **No event forgets a coroutine.** -/
theorem Remembered.step (hr : Remembered s) (hc : Continued s) {event : Event α τ κ}
    (hstep : s.step setup event = some s') : Remembered s' := by
  intro b hphase
  obtain ⟨w, hw, htouches⟩ := step_awaiter hstep b
  rw [hw] at hphase ⊢
  cases htouches with
  | kept | counted => exact hr b hphase
  | @suspended h add =>
    cases add with
    | some err => exact .inr rfl
    | none => exact .inl rfl
  | cancelled => exact .inr (by simp [Option.isSome_iff_ne_none.mpr (hc b hphase)])
  | queued => exact .inr rfl
  | resumed | destroyed => cases hphase

end Executor
