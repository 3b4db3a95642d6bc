import SapCore.Machine
import SapCore.TaskMachine

/-!
# The operations of tasks, in any order

A `Task` object holds the handle of a coroutine, or an empty one. Objects are constructed, moved
and destroyed in any order; the coroutine of one is started by whoever awaits it, or by `detach`.
The operations do not agree on what they assume: `await_ready` takes an empty handle for one that
is done, and `await_resume`, which follows at once, uses its promise; `detach` resumes the
coroutine without asking whether it is done.

The machine takes the operations in any order, for any number of task objects (`ν`) and of
coroutines, which are numbered, of this type and of others. A coroutine that is suspended in a
`co_await` of a task remembers the object, for `await_resume` is called on it when the coroutine
is resumed. What else a body does – it is suspended in some other way, and resumed by whoever has
its handle – is a matter of the labels. An object that does not exist is `none`, an empty one
`some none`. Objects that live in a frame are destroyed after it, by labels of their own.

What an operation may not do is recorded: to use the promise of an empty handle, to resume a
coroutine at its final suspend point or one that is running, to destroy one that is running, to
take a value that was not stored, and to use a frame or an object that was destroyed.
-/

/-- Where a coroutine is. -/
inductive CoroutinePoint (ν : Type) where
  /-- There is no frame yet. -/
  | unborn
  /-- At its initial suspend point. -/
  | initial
  | running
  /-- Suspended, but not in the `co_await` of a task. -/
  | suspended
  /-- Suspended in the `co_await` of a task object. -/
  | awaiting (t : ν)
  /-- At its final suspend point. -/
  | final
  | destroyed
  deriving DecidableEq, Repr

/-- It was started, and has not come to its end. -/
def CoroutinePoint.underway {ν : Type} : CoroutinePoint ν → Bool
  | .running | .suspended | .awaiting _ => true
  | _ => false

/-- **What an operation may not do.** -/
inductive TaskFault where
  | promiseOfEmpty
  | resumedFinished
  | resumedRunning
  | destroyedRunning
  | takenEarly
  | touchedDestroyed
  deriving DecidableEq, Repr

/-- **The frame of a coroutine.** -/
structure TaskFrame (ν υ ξ : Type) where
  point : CoroutinePoint ν
  promise : Async.Promise υ ξ

/-- **The coroutines and the task objects.** -/
structure Tasks (ν υ ξ : Type) where
  frame : ℕ → TaskFrame ν υ ξ
  handle : ν → Option (Option ℕ)
  /-- What a `co_await` gave to which coroutine. -/
  results : List (ℕ × Outcome υ ξ)
  faults : List TaskFault

namespace Tasks

variable {ν υ ξ : Type}

/-- No coroutines and no tasks. -/
def new : Tasks ν υ ξ := ⟨fun _ => ⟨.unborn, .new⟩, fun _ => none, [], []⟩

/-- A fault is recorded. -/
def fault (s : Tasks ν υ ξ) (e : TaskFault) : Tasks ν υ ξ := { s with faults := s.faults ++ [e] }

/-- Where a coroutine is. -/
def point (s : Tasks ν υ ξ) (f : ℕ) : CoroutinePoint ν := (s.frame f).point

/-- The promise in its frame. -/
def promise (s : Tasks ν υ ξ) (f : ℕ) : Async.Promise υ ξ := (s.frame f).promise

/-- A coroutine is called: it has a frame, with a new promise. -/
def birth (s : Tasks ν υ ξ) (f : ℕ) (p : CoroutinePoint ν) : Tasks ν υ ξ :=
  { s with frame := Function.update s.frame f ⟨p, .new⟩ }

/-- A coroutine comes to a point. -/
def setPoint (s : Tasks ν υ ξ) (f : ℕ) (p : CoroutinePoint ν) : Tasks ν υ ξ :=
  { s with frame := Function.update s.frame f ⟨p, s.promise f⟩ }

/-- Write to a promise. -/
def setPromise (s : Tasks ν υ ξ) (f : ℕ) (p : Async.Promise υ ξ) : Tasks ν υ ξ :=
  { s with frame := Function.update s.frame f ⟨s.point f, p⟩ }

variable [DecidableEq ν]

/-- Write to a task object. -/
def setHandle (s : Tasks ν υ ξ) (t : ν) (h : Option (Option ℕ)) : Tasks ν υ ξ :=
  { s with handle := Function.update s.handle t h }

/-- `await_ready`, and `done`. -/
def awaitReady (s : Tasks ν υ ξ) : Option ℕ → Bool
  | none => true
  | some f => s.point f = .final

/-- `await_resume` of a task object, in the coroutine `a`. -/
def awaitResume (s : Tasks ν υ ξ) (a : ℕ) (t : ν) : Tasks ν υ ξ :=
  match s.handle t with
  | none => s.fault .touchedDestroyed
  | some none => s.fault .promiseOfEmpty
  | some (some f) =>
    if s.point f = .destroyed then s.fault .touchedDestroyed
    else
      match (s.promise f).outcome with
      | none => s.fault .takenEarly
      | some o => { s with results := s.results ++ [(a, o)] }

/-- `resume` of a coroutine handle. -/
def resume (s : Tasks ν υ ξ) (f : ℕ) : Tasks ν υ ξ :=
  match s.point f with
  | .initial => s.setPoint f .running
  | .suspended => s.setPoint f .running
  | .awaiting t => (s.setPoint f .running).awaitResume f t
  | .running => s.fault .resumedRunning
  | .final => s.fault .resumedFinished
  | .unborn => s.fault .touchedDestroyed
  | .destroyed => s.fault .touchedDestroyed

/-- `destroy` of a coroutine handle, unless it is empty. -/
def destroy (s : Tasks ν υ ξ) : Option ℕ → Tasks ν υ ξ
  | none => s
  | some f =>
    match s.point f with
    | .running => (s.setPoint f .destroyed).fault .destroyedRunning
    | .unborn => s.fault .touchedDestroyed
    | .destroyed => s.fault .touchedDestroyed
    | _ => s.setPoint f .destroyed

/-- The `exchange` of a move: `t` takes what `u` holds. -/
def take (s : Tasks ν υ ξ) (t u : ν) : Tasks ν υ ξ :=
  (s.setHandle t (s.handle u)).setHandle u (some none)

/-- The destructor. -/
def drop (s : Tasks ν υ ξ) (t : ν) : Tasks ν υ ξ :=
  (s.destroy ((s.handle t).getD none)).setHandle t none

/-- Move assignment. -/
def moveAssign (s : Tasks ν υ ξ) (t u : ν) : Tasks ν υ ξ :=
  if t = u then s else (s.destroy ((s.handle t).getD none)).take t u

/-- `await_suspend`: the awaiting coroutine is stored, and control transferred to the task. -/
def awaitSuspend (s : Tasks ν υ ξ) (a : ℕ) : Option ℕ → Tasks ν υ ξ
  | none => s.fault .promiseOfEmpty
  | some f => (s.setPromise f { s.promise f with continuation := some a }).resume f

/-- `co_await` of a task object, in the coroutine `a`. The object is its own awaiter, whether it is
an lvalue or not; a temporary is destroyed afterwards. -/
def coAwait (s : Tasks ν υ ξ) (a : ℕ) (t : ν) : Tasks ν υ ξ :=
  if s.awaitReady ((s.handle t).getD none) then s.awaitResume a t
  else (s.setPoint a (.awaiting t)).awaitSuspend a ((s.handle t).getD none)

/-- `detach`. -/
def detach (s : Tasks ν υ ξ) (t : ν) : Tasks ν υ ξ :=
  match (s.handle t).getD none with
  | none => s
  | some f =>
    ((s.setPromise f { s.promise f with detached := true }).setHandle t (some none)).resume f

/-- `final_awaiter::await_suspend`. -/
def finalSuspend (s : Tasks ν υ ξ) (f : ℕ) : Tasks ν υ ξ :=
  if (s.promise f).detached then s.destroy (some f)
  else
    match (s.promise f).continuation with
    | none => s
    | some c => s.resume c

/-- A body ends, with a value or an exception: the promise takes it, and `final_suspend` is
awaited. -/
def complete (s : Tasks ν υ ξ) (f : ℕ) (o : Outcome υ ξ) : Tasks ν υ ξ :=
  ((s.setPromise f ((s.promise f).store o)).setPoint f .final).finalSuspend f

/-! ## The machine -/

/-- A label. -/
inductive Label (ν υ ξ : Type) where
  | construct (t : ν)
  /-- A coroutine is called that returns a task. -/
  | call (t : ν) (f : ℕ)
  | moveConstruct (t u : ν)
  | moveAssign (t u : ν)
  | drop (t : ν)
  | coAwait (a : ℕ) (t : ν)
  | detach (t : ν)
  /-- A coroutine of another type is called and runs. -/
  | enter (a : ℕ)
  /-- A coroutine is suspended in some other way than by the `co_await` of a task. -/
  | suspend (a : ℕ)
  /-- It goes on. -/
  | wakeUp (a : ℕ)
  | complete (a : ℕ) (o : Outcome υ ξ)

/-- **One step.** An object is constructed where there is none, and used where there is one; what
a body does it does while it runs. -/
def step (s : Tasks ν υ ξ) : Label ν υ ξ → Option (Tasks ν υ ξ)
  | .construct t => if s.handle t = none then some (s.setHandle t (some none)) else none
  | .call t f =>
    if s.handle t = none ∧ s.point f = .unborn then
      some ((s.birth f .initial).setHandle t (some (some f)))
    else none
  | .moveConstruct t u =>
    if s.handle t = none ∧ s.handle u ≠ none then some (s.take t u) else none
  | .moveAssign t u =>
    if s.handle t ≠ none ∧ s.handle u ≠ none then some (s.moveAssign t u) else none
  | .drop t => if s.handle t ≠ none then some (s.drop t) else none
  | .coAwait a t =>
    if s.point a = .running ∧ s.handle t ≠ none then some (s.coAwait a t) else none
  | .detach t => if s.handle t ≠ none then some (s.detach t) else none
  | .enter a => if s.point a = .unborn then some (s.birth a .running) else none
  | .suspend a => if s.point a = .running then some (s.setPoint a .suspended) else none
  | .wakeUp a => if s.point a = .suspended then some (s.setPoint a .running) else none
  | .complete a o => if s.point a = .running then some (s.complete a o) else none

/-- The tasks as a machine. -/
def machine : Machine (Tasks ν υ ξ) (Label ν υ ξ) := ⟨new, step⟩

end Tasks
