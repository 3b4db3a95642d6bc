import Mathlib.Data.List.Basic
import Mathlib.Logic.Function.Basic
import SapCore.Machine

/-!
# Timers

A `Timer` has a mode, a delay and a callback, and when it is started it gets a thread of its
own. The worker waits for the delay and calls the callback, once or over and over, until a stop
is requested; the mode, the delay and the callback are copied for it when it is started, so that
it refers to nothing of the `Timer`. `stop` requests the stop and joins the thread, which may
take as long as a callback does; `reset`, the destructor, and the assignment to a `Timer` that
has a worker do so first of all. Only a thread that has been joined is gone: `start` fails for a
timer whose worker has come to its end by itself.

Timers are used by one thread. Beside it are the workers, which take their steps at any time,
also while that thread waits for one of them. The wait of a worker is over when its time is, or
earlier, if a stop was requested; either way the token is asked once more, and the callback is
called unless a stop was requested by then.
-/

/-- `Timer::Mode`. -/
inductive TimerMode where
  | oneShot
  | periodic
  deriving DecidableEq, Repr

/-- **`Timer`**, for callbacks of some type; `thread` is the worker that `m_thread` stands for, if
it is joinable. `m_start_ns` is not used. -/
structure Timer (κ : Type) where
  mode : TimerMode
  delayNs : Int64
  callback : κ
  thread : Option ℕ
  deriving DecidableEq, Repr

/-- Where a worker is in `run_loop`. -/
inductive RunLoop where
  /-- In `wait_for`. -/
  | waiting
  /-- In the callback. -/
  | calling
  | returned
  deriving DecidableEq, Repr

/-- **A worker**, with what was copied for it; whether a stop was requested, and whether it was
joined. -/
structure TimerWorker (κ : Type) where
  mode : TimerMode
  delayNs : Int64
  callback : κ
  pc : RunLoop
  stopRequested : Bool
  joined : Bool
  deriving DecidableEq, Repr

namespace TimerWorker

variable {κ : Type}

/-- `wait_for` returns: `stop_requested` is its result. -/
def waited (w : TimerWorker κ) : TimerWorker κ :=
  { w with pc := if w.stopRequested then .returned else .calling }

/-- The callback returns, and the loop goes on if the timer is periodic. -/
def called (w : TimerWorker κ) : TimerWorker κ :=
  { w with pc := if w.mode = .periodic then .waiting else .returned }

end TimerWorker

/-- What is done once the worker of a timer was joined. -/
inductive AfterStop (ν : Type) where
  | stop
  | reset (newDelayNs : Int64)
  | destroy
  /-- The rest of a move-assignment. -/
  | assign (y : ν)
  deriving DecidableEq, Repr

/-- A thread that joins a worker. -/
structure Joining (ν : Type) where
  timer : ν
  worker : ℕ
  andThen : AfterStop ν
  deriving DecidableEq, Repr

/-- **Timers, their workers, and the thread that uses them**, where it joins a worker. -/
structure Timers (ν κ : Type) where
  timer : ν → Option (Timer κ)
  worker : ℕ → Option (TimerWorker κ)
  /-- The number of threads that were started. -/
  threads : ℕ
  joining : Option (Joining ν)

namespace Timers

variable {ν κ : Type}

/-- What is done to the timers, and the steps of the workers. -/
inductive Label (ν κ : Type) where
  | construct (x : ν) (mode : TimerMode) (delayNs : Int64) (callback : κ)
  | start (x : ν)
  | stop (x : ν)
  | reset (x : ν) (newDelayNs : Int64)
  /-- `x` is made from `y`; the callback that `y` is left with is not specified. -/
  | moveConstruct (x y : ν) (left : κ)
  /-- `x = std::move(y)`. -/
  | moveAssign (x y : ν) (left : κ)
  | destroy (x : ν)
  /-- The worker that is waited for is joined, and the call goes on. -/
  | join
  /-- The time of a worker is over. -/
  | expire (w : ℕ)
  /-- A worker finds that a stop was requested. -/
  | noticeStop (w : ℕ)
  /-- The callback of a worker returns. -/
  | callbackReturns (w : ℕ)

/-- No timers. -/
def new : Timers ν κ := ⟨fun _ => none, fun _ => none, 0, none⟩

/-- A worker is written. -/
def modifyWorker (s : Timers ν κ) (w : ℕ) (f : TimerWorker κ → TimerWorker κ) : Timers ν κ :=
  { s with worker := Function.update s.worker w ((s.worker w).map f) }

variable [DecidableEq ν]

/-- A timer is written. -/
def setTimer (s : Timers ν κ) (x : ν) (t : Option (Timer κ)) : Timers ν κ :=
  { s with timer := Function.update s.timer x t }

/-- **`start`** of the timer `x`. -/
def start (s : Timers ν κ) (x : ν) (t : Timer κ) : Except String Unit × Timers ν κ :=
  match t.thread with
  | some _ => (.error "Timer::start - timer is already running", s)
  | none =>
    (.ok (),
      { s.setTimer x (some { t with thread := some s.threads }) with
        worker := Function.update s.worker s.threads
          (some ⟨t.mode, t.delayNs, t.callback, .waiting, false, false⟩)
        threads := s.threads + 1 })

/-- What a call does after its `stop`. -/
def afterStop (s : Timers ν κ) (x : ν) (t : Timer κ) : AfterStop ν → Timers ν κ
  | .stop => s
  | .reset newDelayNs => (s.start x { t with delayNs := newDelayNs }).2
  | .destroy => s.setTimer x none
  | .assign y =>
    match s.timer y with
    | some u =>
      (s.setTimer x (some { t with thread := u.thread, mode := u.mode })).setTimer y
        (some { u with thread := none })
    | none => s

/-- **`stop`**, up to `join`, and what follows if there is nothing to join. -/
def stop (s : Timers ν κ) (x : ν) (t : Timer κ) (andThen : AfterStop ν) : Timers ν κ :=
  match t.thread with
  | some w =>
    { s.modifyWorker w (fun wk => { wk with stopRequested := true }) with
      joining := some ⟨x, w, andThen⟩ }
  | none => s.afterStop x t andThen

/-- `join` returns. -/
def join (s : Timers ν κ) (c : Joining ν) (t : Timer κ) : Timers ν κ :=
  let s := { s.modifyWorker c.worker (fun wk => { wk with joined := true }) with joining := none }
  (s.setTimer c.timer (some { t with thread := none })).afterStop c.timer
    { t with thread := none } c.andThen

/-- A step of the thread that uses the timers, where it does not wait. -/
def callStep (s : Timers ν κ) : Label ν κ → Option (Timers ν κ)
  | .construct x mode delayNs callback =>
    match s.timer x with
    | none => some (s.setTimer x (some ⟨mode, delayNs, callback, none⟩))
    | some _ => none
  | .start x => (s.timer x).map (fun t => (s.start x t).2)
  | .stop x => (s.timer x).map (fun t => s.stop x t .stop)
  | .reset x newDelayNs => (s.timer x).map (fun t => s.stop x t (.reset newDelayNs))
  | .moveConstruct x y left =>
    match s.timer x, s.timer y with
    | none, some u =>
      some ((s.setTimer x (some u)).setTimer y (some { u with callback := left, thread := none }))
    | _, _ => none
  | .moveAssign x y left =>
    match s.timer x, s.timer y with
    | some t, some u =>
      if x = y then some s
      else
        let t' := { t with delayNs := u.delayNs, callback := u.callback }
        let s' := (s.setTimer x (some t')).setTimer y (some { u with callback := left })
        some (s'.stop x t' (.assign y))
    | _, _ => none
  | .destroy x => (s.timer x).map (fun t => s.stop x t .destroy)
  | _ => none

/-- A step of a worker. -/
def workerStep (s : Timers ν κ) (w : ℕ) (pc : RunLoop) (ready : TimerWorker κ → Bool)
    (f : TimerWorker κ → TimerWorker κ) : Option (Timers ν κ) :=
  match s.worker w with
  | some wk => if wk.pc = pc ∧ ready wk then some (s.modifyWorker w f) else none
  | none => none

/-- **One step.** -/
def step (s : Timers ν κ) (label : Label ν κ) : Option (Timers ν κ) :=
  match label with
  | .expire w => s.workerStep w .waiting (fun _ => true) TimerWorker.waited
  | .noticeStop w => s.workerStep w .waiting TimerWorker.stopRequested TimerWorker.waited
  | .callbackReturns w => s.workerStep w .calling (fun _ => true) TimerWorker.called
  | .join =>
    match s.joining with
    | none => none
    | some c =>
      match s.timer c.timer, s.worker c.worker with
      | some t, some wk => if wk.pc = .returned then some (s.join c t) else none
      | _, _ => none
  | label =>
    match s.joining with
    | none => s.callStep label
    | some _ => none

/-- **Timers as a machine.** -/
def machine : Machine (Timers ν κ) (Label ν κ) := ⟨new, step⟩

/-! ## What is recorded of a run -/

/-- Something that happened to a worker. -/
inductive Event (ν : Type) where
  /-- It was started by `x`; the delay was in force then. -/
  | started (w : ℕ) (x : ν) (delayNs : Option Int64)
  /-- Its callback is called. -/
  | fires (w : ℕ)
  /-- Its callback has returned. -/
  | fired (w : ℕ)
  /-- It has been joined, by the call that ends it. -/
  | ended (w : ℕ)
  deriving DecidableEq, Repr

/-- **The record of a run**: what happened, and the delays that the calls have put in force. -/
structure Record (ν : Type) where
  log : List (Event ν)
  inForce : ν → Option Int64

/-- The delays that are in force after a call. -/
def Record.delays (r : Record ν) : Label ν κ → ν → Option Int64
  | .construct x _ delayNs _ => Function.update r.inForce x (some delayNs)
  | .reset x newDelayNs => Function.update r.inForce x (some newDelayNs)
  | .moveConstruct x y _ => Function.update r.inForce x (r.inForce y)
  | .moveAssign x y _ => Function.update r.inForce x (r.inForce y)
  | _ => r.inForce

/-- The timer that a step may start. -/
def starter (s : Timers ν κ) : Label ν κ → Option ν
  | .start x => some x
  | .reset x _ => some x
  | .join => s.joining.map Joining.timer
  | _ => none

/-- What a step does to workers. -/
def events (s : Timers ν κ) (label : Label ν κ) (s' : Timers ν κ) (delays : ν → Option Int64) :
    List (Event ν) :=
  (match label, s.joining with
    | .join, some c => [.ended c.worker]
    | _, _ => [])
  ++ (match s.starter label with
    | some x => if s'.threads = s.threads then [] else [.started s.threads x (delays x)]
    | none => [])
  ++ (match label with
    | .expire w => if (s'.worker w).map TimerWorker.pc = some .calling then [.fires w] else []
    | .callbackReturns w => [.fired w]
    | _ => [])

/-- What is recorded of a step. -/
def enter (s : Timers ν κ) (label : Label ν κ) (s' : Timers ν κ) (r : Record ν) : Record ν :=
  ⟨r.log ++ events s label s' (r.delays label), r.delays label⟩

/-- **Timers with their record.** -/
def recorded : Machine (Timers ν κ × Record ν) (Label ν κ) :=
  machine.recording enter ⟨[], fun _ => none⟩

end Timers
