import Mathlib.Data.Int.Notation
import SapCore.Machine
import SapCore.StopState

/-!
# The executor and its awaiters

A coroutine that waits for a file descriptor or a socket awaits an `IoAwaiter`:
the awaiter registers the handle with the reactor, under its own address as the
token, and the coroutine is suspended. Its handle is put into the ready queue of
the `Executor` by whoever comes first – the reactor, which reports the token, or
the stop of the awaiter's token, which calls `on_cancel` – and the loop resumes
the coroutine from there. The awaiter keeps three flags for that (`m_registered`,
`m_queued`, `m_cancelled`) and the executor counts the registered ones
(`m_pending_io`).

All of this happens on one thread. The model is a machine whose labels are the
events, in any order: a coroutine awaits, the reactor reports a batch of tokens,
a stop is requested and calls its callbacks one after the other, the loop resumes
the handle at the front of the queue, a handle is scheduled, an awaiter is
destroyed. What the kernel does is a matter of the labels: whether a registration
succeeds, and which tokens are reported.

`m_pending_io` is an integer here, and goes below zero where the `size_t` of the
source would wrap. `m_fired` is written and never read, and is left out.
-/

/-- A nonempty error of `Reactor::add`: both backends begin it with a fixed text. -/
structure AddError where
  text : List Char
  ne_nil : text ≠ []

/-- `stl::result<>`, as `await_resume` returns it. -/
inductive AwaitResult where
  | success
  | error (text : List Char)
  deriving DecidableEq, Repr

/-- Where the `co_await` of an awaiter is. -/
inductive Phase where
  | idle
  | suspended
  | resumed (result : AwaitResult)
  | destroyed
  deriving DecidableEq, Repr

/-- **`IoAwaiter`**, with its `co_await` and its history: whether the registration
failed, and how often an entry of the ready queue that was pushed for it has been
resumed. -/
structure IoAwaiter (κ : Type) where
  continuation : Option κ
  addError : List Char
  cancelled : Bool
  queued : Bool
  registered : Bool
  phase : Phase
  addFailed : Bool
  resumptions : ℕ

/-- An awaiter that was not awaited yet. -/
def IoAwaiter.new {κ : Type} : IoAwaiter κ := ⟨none, [], false, false, false, .idle, false, 0⟩

/-- What is fixed when the awaiters are constructed: the handles they wait for, and
the stop states of their tokens, if they have one. -/
structure Setup (α τ η : Type) where
  handle : α → η
  token : α → Option τ

/-- **`Executor`**, with the awaiters, the stop states and the coroutines. An entry
of `m_ready` is a coroutine handle; beside it stands the awaiter for which it was
pushed, if it was for one. -/
structure Executor (α τ κ : Type) where
  awaiter : α → IoAwaiter κ
  ready : List (κ × Option α)
  pendingIo : ℤ
  stop : τ → StopState α α
  /-- The tokens of the handles that were added to the reactor and not removed. -/
  added : α → Bool
  /-- The awaiter in which a coroutine is suspended. -/
  suspendedIn : κ → Option α
  /-- The stop state whose callbacks are being called. -/
  draining : Option τ
  /-- The handles pushed onto `m_ready` so far. -/
  pushed : List κ
  /-- The handles resumed so far. -/
  resumed : List κ

namespace Executor

variable {α τ κ η : Type}

/-- A new executor. -/
def new : Executor α τ κ :=
  ⟨fun _ => .new, [], 0, fun _ => .new, fun _ => false, fun _ => none, none, [], []⟩

/-- `stop_requested` of an awaiter's token; without a stop state there is none. -/
def stopRequested (s : Executor α τ κ) (token : Option τ) : Bool :=
  match token with
  | some t => (s.stop t).stopped
  | none => false

/-- Push a handle onto `m_ready`. -/
def push (s : Executor α τ κ) (h : κ) (owner : Option α) : Executor α τ κ :=
  { s with ready := s.ready ++ [(h, owner)], pushed := s.pushed ++ [h] }

/-- `m_add_error`, which takes 127 characters. -/
def truncate (err : AddError) : List Char := err.text.take 127

/-- The text of an error that quotes `m_add_error` as a C string. -/
def addErrorText (addError : List Char) : List Char :=
  "reactor: ".toList ++ addError.takeWhile (fun c => c ≠ Char.ofNat 0)

variable [DecidableEq α] [DecidableEq τ] [DecidableEq κ] [DecidableEq η]

/-- Write to an awaiter. -/
def modify (s : Executor α τ κ) (a : α) (f : IoAwaiter κ → IoAwaiter κ) : Executor α τ κ :=
  { s with awaiter := Function.update s.awaiter a (f (s.awaiter a)) }

/-- Write to a stop state. -/
def setStop (s : Executor α τ κ) (t : τ) (stop : StopState α α) : Executor α τ κ :=
  { s with stop := Function.update s.stop t stop }

variable (setup : Setup α τ η)

/-- The block that `await_resume` and `on_cancel` share: where the awaiter is
registered, the handle is removed from the reactor. -/
def deregister (s : Executor α τ κ) (a : α) : Executor α τ κ :=
  if (s.awaiter a).registered then
    { s with
      awaiter := Function.update s.awaiter a { s.awaiter a with registered := false }
      added := fun b => if setup.handle b = setup.handle a then false else s.added b
      pendingIo := s.pendingIo - 1 }
  else s

/-- The end of `on_cancel`: where the awaiter is not queued yet and has a continuation, it
is queued. -/
def enqueue (s : Executor α τ κ) (a : α) : Executor α τ κ :=
  if (s.awaiter a).queued then s
  else match (s.awaiter a).continuation with
    | some h => (s.modify a (fun w => { w with queued := true })).push h (some a)
    | none => s

/-- `IoAwaiter::on_cancel`. -/
def onCancel (s : Executor α τ κ) (a : α) : Executor α τ κ :=
  if (s.awaiter a).cancelled then s
  else ((s.modify a (fun w => { w with cancelled := true })).deregister setup a).enqueue a

/-- `IoAwaiter::await_ready`. -/
def awaitReady (s : Executor α τ κ) (a : α) : Bool := s.stopRequested (setup.token a)

/-- A coroutine is suspended in an awaiter, which takes its handle. -/
def suspend (s : Executor α τ κ) (a : α) (h : κ) : Executor α τ κ :=
  { s with
    awaiter := Function.update s.awaiter a
      { s.awaiter a with phase := .suspended, continuation := some h }
    suspendedIn := Function.update s.suspendedIn h (some a) }

/-- The branch of `IoAwaiter::await_suspend` where the reactor refuses the handle. -/
def refuse (s : Executor α τ κ) (a : α) (h : κ) (err : AddError) : Executor α τ κ :=
  (s.modify a (fun w =>
    { w with addError := truncate err, addFailed := true, queued := true })).push h (some a)

/-- The branch where it takes it, up to the token. -/
def register (s : Executor α τ κ) (a : α) : Executor α τ κ :=
  { s with
    awaiter := Function.update s.awaiter a { s.awaiter a with registered := true }
    added := Function.update s.added a true
    pendingIo := s.pendingIo + 1 }

/-- `_arm` of the awaiter's node with `on_cancel`, where the token has a stop
state. -/
def armToken (s : Executor α τ κ) (a : α) : Executor α τ κ :=
  match setup.token a with
  | some t =>
    match (s.stop t).arm a (some a) with
    | (stop, true) => (s.setStop t stop).onCancel setup a
    | (stop, false) => s.setStop t stop
  | none => s

/-- `IoAwaiter::await_suspend`; `add` is the error of the registration, if it
fails. -/
def awaitSuspend (s : Executor α τ κ) (a : α) (h : κ) (add : Option AddError) : Executor α τ κ :=
  match add with
  | some err => (s.suspend a h).refuse a h err
  | none => ((s.suspend a h).register a).armToken setup a

/-- What `IoAwaiter::await_resume` returns. -/
def awaitResult (s : Executor α τ κ) (a : α) : AwaitResult :=
  if (s.awaiter a).addError ≠ [] then .error (addErrorText (s.awaiter a).addError)
  else if (s.awaiter a).cancelled || s.stopRequested (setup.token a) then
    .error "cancelled".toList
  else .success

/-- `IoAwaiter::await_resume`. -/
def awaitResume (s : Executor α τ κ) (a : α) : Executor α τ κ :=
  (s.deregister setup a).modify a (fun w => { w with phase := .resumed (s.awaitResult setup a) })

/-! ## The machine -/

/-- An event. -/
inductive Event (α τ κ : Type) where
  /-- A coroutine awaits an awaiter; if it is registered, with this error or none. -/
  | coAwait (a : α) (h : κ) (add : Option AddError)
  /-- The reactor reports a batch of tokens. -/
  | trigger (tokens : List α)
  /-- `request_stop`, up to its loop. -/
  | requestStop (t : τ)
  /-- A turn of that loop, or its end. -/
  | turn
  /-- The loop takes the handle at the front of `m_ready` and resumes it. -/
  | resume
  /-- `schedule`. -/
  | schedule (h : κ)
  /-- The awaiter is destroyed, and its node with it. -/
  | destroy (a : α)

/-- `co_await` of an awaiter: the coroutine goes on if the awaiter is ready, and is
suspended otherwise. -/
def coAwait (s : Executor α τ κ) (a : α) (h : κ) (add : Option AddError) : Executor α τ κ :=
  if s.awaitReady setup a then s.awaitResume setup a else s.awaitSuspend setup a h add

/-- A turn of the loop of `run_until` over the triggers: where the awaiter is not queued
yet, it is. Unlike `on_cancel` it does not test the continuation; there is no result where
a null handle would be queued, which is not to be resumed. -/
def fire (s : Executor α τ κ) (a : α) : Option (Executor α τ κ) :=
  if (s.awaiter a).queued then some s
  else (s.awaiter a).continuation.map
    (fun h => (s.modify a (fun w => { w with queued := true })).push h (some a))

/-- The loop over a batch of triggers. -/
def dispatch (s : Executor α τ κ) (tokens : List α) : Option (Executor α τ κ) :=
  tokens.foldlM fire s

/-- The same, with the test of `on_cancel`. -/
def enqueueAll (s : Executor α τ κ) (tokens : List α) : Executor α τ κ :=
  tokens.foldl enqueue s

omit [DecidableEq τ] [DecidableEq κ] in
theorem enqueueAll_cons (s : Executor α τ κ) (a : α) (tokens : List α) :
    s.enqueueAll (a :: tokens) = (s.enqueue a).enqueueAll tokens := rfl

omit [DecidableEq τ] [DecidableEq κ] in
/-- Where a turn has a result, the test makes no difference. -/
theorem eq_enqueue_of_fire {s s' : Executor α τ κ} {a : α} (hfire : s.fire a = some s') :
    s' = s.enqueue a := by
  unfold fire at hfire
  unfold enqueue
  split at hfire
  · rename_i hqueued
    rw [if_pos hqueued]
    exact (Option.some.inj hfire).symm
  · rename_i hqueued
    obtain ⟨h, hc, rfl⟩ := Option.map_eq_some_iff.mp hfire
    rw [if_neg hqueued, hc]

omit [DecidableEq τ] [DecidableEq κ] in
theorem eq_enqueueAll_of_dispatch {s s' : Executor α τ κ} {tokens : List α}
    (hdispatch : s.dispatch tokens = some s') : s' = s.enqueueAll tokens := by
  induction tokens generalizing s with
  | nil => exact (Option.some.inj hdispatch).symm
  | cons a tokens ih =>
    obtain ⟨s₁, hfire, hrest⟩ := Option.bind_eq_some_iff.mp hdispatch
    rw [enqueueAll_cons, ← eq_enqueue_of_fire hfire]
    exact ih hrest

/-- `request_stop`: it sets the flag, and goes on to the callbacks. -/
def requestStop (s : Executor α τ κ) (t : τ) : Executor α τ κ :=
  if (s.stop t).stopped then s
  else
    { s with
      stop := Function.update s.stop t { s.stop t with stopped := true }
      draining := some t }

/-- A turn of the loop of `request_stop`. -/
def turn (s : Executor α τ κ) (t : τ) : Executor α τ κ :=
  match (s.stop t).unlinkHead with
  | some (cb, stop) =>
    match stop.fn cb with
    | some a => (s.setStop t stop).onCancel setup a
    | none => s.setStop t stop
  | none => { s with draining := none }

/-- A coroutine is no longer suspended. -/
def wake (s : Executor α τ κ) (h : κ) : Executor α τ κ :=
  { s with suspendedIn := Function.update s.suspendedIn h none }

/-- A coroutine goes on after the `co_await` in which it is suspended. -/
def goOn (s : Executor α τ κ) (h : κ) : Executor α τ κ :=
  match s.suspendedIn h with
  | some a => (s.wake h).awaitResume setup a
  | none => s

/-- Count an entry that is resumed. -/
def countResumption (s : Executor α τ κ) (owner : Option α) : Executor α τ κ :=
  match owner with
  | some a => s.modify a (fun w => { w with resumptions := w.resumptions + 1 })
  | none => s

/-- The entry at the front of `m_ready` is taken out. -/
def popFront (s : Executor α τ κ) (h : κ) (rest : List (κ × Option α)) : Executor α τ κ :=
  { s with ready := rest, resumed := s.resumed ++ [h] }

/-- The entry at the front of `m_ready` is taken out and its handle resumed. -/
def resumeFront (s : Executor α τ κ) (h : κ) (owner : Option α) (rest : List (κ × Option α)) :
    Executor α τ κ :=
  ((s.popFront h rest).countResumption owner).goOn setup h

/-- The destructor of an awaiter, which destroys its node. -/
def destroy (s : Executor α τ κ) (a : α) : Executor α τ κ :=
  (match setup.token a with
    | some t => s.setStop t ((s.stop t).destroy a)
    | none => s).modify a (fun w => { w with phase := .destroyed })

/-- **One event.** While a stop calls its callbacks nothing else happens. A coroutine
that awaits is running, and the awaiter is there and not awaited by another; an
awaiter is not destroyed while a coroutine is suspended in it; and the reactor
reports tokens of handles that were added and not removed. -/
def step (s : Executor α τ κ) (event : Event α τ κ) : Option (Executor α τ κ) :=
  match s.draining, event with
  | some t, .turn => some (s.turn setup t)
  | some _, _ => none
  | none, .turn => none
  | none, .coAwait a h add =>
    if (s.awaiter a).phase = .suspended ∨ (s.awaiter a).phase = .destroyed
      ∨ s.suspendedIn h ≠ none then none
    else some (s.coAwait setup a h add)
  | none, .trigger tokens =>
    if ∀ a ∈ tokens, s.added a = true then s.dispatch tokens else none
  | none, .requestStop t => some (s.requestStop t)
  | none, .resume =>
    match s.ready with
    | (h, owner) :: rest => some (s.resumeFront setup h owner rest)
    | [] => none
  | none, .schedule h => some (s.push h none)
  | none, .destroy a =>
    if (s.awaiter a).phase = .suspended ∨ (s.awaiter a).phase = .destroyed then none
    else some (s.destroy setup a)

/-- **The executor, as a machine.** -/
def machine : Machine (Executor α τ κ) (Event α τ κ) := ⟨new, step setup⟩

/-- **What an event does**, case by case. -/
inductive Moves (s : Executor α τ κ) : Event α τ κ → Executor α τ κ → Prop
  | turn {t : τ} (hdraining : s.draining = some t) : Moves s .turn (s.turn setup t)
  | coAwait {a : α} {h : κ} {add : Option AddError}
      (hphase : (s.awaiter a).phase ≠ .suspended) (hrunning : s.suspendedIn h = none) :
      Moves s (.coAwait a h add) (s.coAwait setup a h add)
  | trigger {tokens : List α} (hadded : ∀ a ∈ tokens, s.added a = true) :
      Moves s (.trigger tokens) (s.enqueueAll tokens)
  | requestStop {t : τ} : Moves s (.requestStop t) (s.requestStop t)
  | resume {h : κ} {owner : Option α} {rest : List (κ × Option α)}
      (hready : s.ready = (h, owner) :: rest) : Moves s .resume (s.resumeFront setup h owner rest)
  | schedule {h : κ} : Moves s (.schedule h) (s.push h none)
  | destroy {a : α} (hphase : (s.awaiter a).phase ≠ .suspended) :
      Moves s (.destroy a) (s.destroy setup a)

variable {setup} in
/-- **Every step is one of these.** -/
theorem step_cases {s s' : Executor α τ κ} {event : Event α τ κ}
    (hstep : s.step setup event = some s') : Moves setup s event s' := by
  unfold step at hstep
  cases hdraining : s.draining with
  | some t =>
    rw [hdraining] at hstep
    cases event with
    | turn =>
      cases hstep
      exact .turn hdraining
    | _ => cases hstep
  | none =>
    rw [hdraining] at hstep
    cases event with
    | turn => cases hstep
    | coAwait a h add =>
      dsimp only at hstep
      split at hstep
      · cases hstep
      · rename_i hguard
        cases hstep
        rw [not_or, not_or, not_not] at hguard
        exact .coAwait hguard.1 hguard.2.2
    | trigger tokens =>
      dsimp only at hstep
      split at hstep
      · rename_i hadded
        rw [eq_enqueueAll_of_dispatch hstep]
        exact .trigger hadded
      · cases hstep
    | requestStop t =>
      cases hstep
      exact .requestStop
    | resume =>
      dsimp only at hstep
      split at hstep
      · rename_i h owner rest hready
        cases hstep
        exact .resume hready
      · cases hstep
    | schedule h =>
      cases hstep
      exact .schedule
    | destroy a =>
      dsimp only at hstep
      split at hstep
      · cases hstep
      · rename_i hguard
        cases hstep
        rw [not_or] at hguard
        exact .destroy hguard.1

end Executor
