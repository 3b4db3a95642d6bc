import Mathlib.Logic.Function.Basic
import SapCore.TaskProgram

/-!
# The machine of suspended frames

How the coroutines run. Each has a frame, with its promise and the point at which it is
suspended. A task is created suspended at its beginning; `co_await` stores the awaiting
coroutine as the continuation in the promise of the task and transfers control to the
task; at its end a task transfers control to its continuation, which takes the value or
rethrows the exception out of the promise. No call is left open by that. Calls are left
open by `resume` only, by which `detach` and `sync_wait` start a coroutine: they go on
when control is transferred to nobody.

A step fails where the source's behaviour is undefined: a frame is used that is not
there, a coroutine is resumed that is not suspended, a value is taken that was not
stored; and where `sync_wait` would wait for ever.

The frame of a task that is awaited in place is destroyed after the `co_await`, that of
a detached one at its end, and the frames of the tasks that `when_all` takes by value
with its own. The frames that `sync_wait` itself owns are destroyed after its end.
-/

namespace Async

variable {ω υ ξ : Type}

/-! ## Frames -/

/-- **A promise**: the value or the exception, the continuation, and `detached`. -/
structure Promise (υ ξ : Type) where
  exc : Option ξ
  value : Option υ
  continuation : Option ℕ
  detached : Bool

/-- A new promise. -/
def Promise.new : Promise υ ξ := ⟨none, none, none, false⟩

/-- `return_value` or `unhandled_exception`. -/
def Promise.store (p : Promise υ ξ) : Outcome υ ξ → Promise υ ξ
  | .value v => { p with value := some v }
  | .exception e => { p with exc := some e }

@[simp] theorem Promise.store_continuation (p : Promise υ ξ) (o : Outcome υ ξ) :
    (p.store o).continuation = p.continuation := by
  cases o with
  | value v => rfl
  | exception e => rfl

@[simp] theorem Promise.store_detached (p : Promise υ ξ) (o : Outcome υ ξ) :
    (p.store o).detached = p.detached := by
  cases o with
  | value v => rfl
  | exception e => rfl

/-- What is taken out of a promise: `exc` is looked at first. -/
def Promise.outcome (p : Promise υ ξ) : Option (Outcome υ ξ) :=
  match p.exc, p.value with
  | some e, _ => some (.exception e)
  | none, some v => some (.value v)
  | none, none => none

/-- What is left to do in a body after the statement that is running. -/
inductive Ctx (ω υ ξ : Type) where
  | bind (next : υ → Stmt ω υ ξ)
  | catch (handler : ξ → Stmt ω υ ξ)
  /-- The tasks of `when_all` still to be awaited, and the values so far. -/
  | all (rest : List ℕ) (got : List υ)

/-- The point at which a coroutine is suspended. -/
inductive Code (ω υ ξ : Type) where
  /-- `initial_suspend`, of a coroutine with a body. -/
  | start (body : Stmt ω υ ξ)
  /-- `initial_suspend`, of `when_all`. -/
  | startAll (tasks : List ℕ)
  /-- `initial_suspend`, of the runner of `sync_wait`. -/
  | startWait (task : ℕ)
  /-- It is not suspended. -/
  | running
  /-- A `co_await`, of a task that is a temporary or of one that is not. -/
  | awaiting (task : ℕ) (temporary : Bool) (K : List (Ctx ω υ ξ))
  /-- `final_suspend`. -/
  | final

/-- `done` of a coroutine handle. -/
def Code.done : Code ω υ ξ → Bool
  | .final => true
  | _ => false

/-- **A frame.** `wait` marks the runner of `sync_wait`, whose final awaiter is another;
`params` are the frames of the tasks among the parameters, and of theirs. -/
structure Frame (ω υ ξ : Type) where
  promise : Promise υ ξ
  wait : Bool
  code : Code ω υ ξ
  params : List ℕ

/-- A frame at its final suspend point. -/
def Frame.finish (f : Frame ω υ ξ) (o : Outcome υ ξ) : Frame ω υ ξ :=
  { f with promise := f.promise.store o, code := .final }

/-- **The frames**, and the number of the next one. -/
structure Heap (ω υ ξ : Type) where
  frame : ℕ → Option (Frame ω υ ξ)
  next : ℕ

namespace Heap

/-- No frames. -/
def empty : Heap ω υ ξ := ⟨fun _ => none, 0⟩

/-- Write a frame. -/
def set (H : Heap ω υ ξ) (r : ℕ) (f : Frame ω υ ξ) : Heap ω υ ξ :=
  { H with frame := Function.update H.frame r (some f) }

/-- A new frame. -/
def alloc (H : Heap ω υ ξ) (f : Frame ω υ ξ) : ℕ × Heap ω υ ξ :=
  (H.next, ⟨Function.update H.frame H.next (some f), H.next + 1⟩)

/-- `destroy` of a coroutine handle. -/
def destroy (H : Heap ω υ ξ) (r : ℕ) : Option (Heap ω υ ξ) :=
  (H.frame r).map (fun f =>
    { H with frame := fun i => if i = r ∨ i ∈ f.params then none else H.frame i })

end Heap

mutual

/-- **A task is created**, suspended at its beginning. -/
def Task.create : Task ω υ ξ → Heap ω υ ξ → ℕ × Heap ω υ ξ
  | .call body, H => H.alloc ⟨.new, false, .start body, []⟩
  | .whenAll tasks, H =>
    (tasks.create H).2.alloc ⟨.new, false, .startAll (tasks.create H).1,
      List.range' H.next ((tasks.create H).2.next - H.next)⟩

/-- The arguments of `when_all` are created. -/
def Pack.create : Pack ω υ ξ → Heap ω υ ξ → List ℕ × Heap ω υ ξ
  | .nil, H => ([], H)
  | .cons task tasks, H =>
    ((task.create H).1 :: (tasks.create (task.create H).2).1, (tasks.create (task.create H).2).2)

end

/-! ## Steps -/

/-- **Who has control.** -/
inductive Control (ω υ ξ : Type) where
  /-- A coroutine runs a statement. -/
  | exec (r : ℕ) (s : Stmt ω υ ξ) (K : List (Ctx ω υ ξ))
  /-- A statement of it ended. -/
  | flow (r : ℕ) (f : Flow υ ξ) (K : List (Ctx ω υ ξ))
  /-- It awaits a task. -/
  | await (r : ℕ) (task : ℕ) (temporary : Bool) (K : List (Ctx ω υ ξ))
  /-- `when_all` goes on to its next task. -/
  | pack (r : ℕ) (tasks : List ℕ) (got : List υ) (K : List (Ctx ω υ ξ))
  /-- Control is transferred to a coroutine, or to nobody. -/
  | transfer (r : Option ℕ)
  /-- `sync_wait` waits for its semaphore. -/
  | acquire (r : ℕ)
  /-- `sync_wait` returned, or rethrew. -/
  | returned (o : Outcome υ ξ)

/-- A call of `resume` that is open. -/
inductive Resumer (ω υ ξ : Type) where
  | syncWait (r : ℕ)
  | detach (r : ℕ) (K : List (Ctx ω υ ξ))

/-- **A configuration**: the frames, who has control, the open calls of `resume`, whether
the semaphore is released, and the effects performed. -/
structure Config (ω υ ξ : Type) where
  heap : Heap ω υ ξ
  control : Control ω υ ξ
  resumers : List (Resumer ω υ ξ)
  released : Bool
  trace : List ω

namespace Config

/-- Pass control on. -/
def go (c : Config ω υ ξ) (control : Control ω υ ξ) : Config ω υ ξ := { c with control := control }

/-- A statement is run. -/
def exec (W : World ω υ) (c : Config ω υ ξ) (r : ℕ) (s : Stmt ω υ ξ) (K : List (Ctx ω υ ξ)) :
    Option (Config ω υ ξ) :=
  match s with
  | .value v => some (c.go (.flow r (.next v) K))
  | .coReturn v => some (c.go (.flow r (.ret v) K))
  | .throw e => some (c.go (.flow r (.exc e) K))
  | .effect w =>
    some { c with control := .flow r (.next (W.answer c.trace w)) K, trace := c.trace ++ [w] }
  | .bind first next => some (c.go (.exec r first (.bind next :: K)))
  | .tryCatch block handler => some (c.go (.exec r block (.catch handler :: K)))
  | .coAwait task =>
    some { c with
      heap := (task.create c.heap).2
      control := .await r (task.create c.heap).1 true K }
  | .detach task =>
    -- `promise().detached = true`, and `resume`
    ((task.create c.heap).2.frame (task.create c.heap).1).map (fun f =>
      { c with
        heap := (task.create c.heap).2.set (task.create c.heap).1
          { f with promise := { f.promise with detached := true } }
        control := .transfer (some (task.create c.heap).1)
        resumers := .detach r K :: c.resumers })

/-- `await_resume`; a temporary task is destroyed after it. -/
def awaitResume (c : Config ω υ ξ) (r task : ℕ) (temporary : Bool) (K : List (Ctx ω υ ξ)) :
    Option (Config ω υ ξ) :=
  (c.heap.frame task).bind (fun f => f.promise.outcome.bind (fun o =>
    if temporary then
      (c.heap.destroy task).map (fun H => { c with heap := H, control := .flow r (.ofOutcome o) K })
    else some (c.go (.flow r (.ofOutcome o) K))))

/-- `await_ready` and `await_suspend` of a task. -/
def await (c : Config ω υ ξ) (r task : ℕ) (temporary : Bool) (K : List (Ctx ω υ ξ)) :
    Option (Config ω υ ξ) :=
  (c.heap.frame task).bind (fun f => (c.heap.frame r).bind (fun g =>
    if f.code.done then c.awaitResume r task temporary K
    else
      some { c with
        heap := (c.heap.set r { g with code := .awaiting task temporary K }).set task
          { f with promise := { f.promise with continuation := some r } }
        control := .transfer (some task) }))

/-- `await_suspend` of the final awaiter, of a task or of the runner of `sync_wait`. -/
def finalSuspend (c : Config ω υ ξ) (r : ℕ) (f : Frame ω υ ξ) : Option (Config ω υ ξ) :=
  if f.wait then some { c with control := .transfer none, released := true }
  else if f.promise.detached then
    (c.heap.destroy r).map (fun H => { c with heap := H, control := .transfer none })
  else some (c.go (.transfer f.promise.continuation))

/-- The body of a coroutine ended: the promise takes the result, and `final_suspend` is
awaited. -/
def complete (c : Config ω υ ξ) (r : ℕ) (o : Outcome υ ξ) : Option (Config ω υ ξ) :=
  (c.heap.frame r).bind (fun f =>
    { c with heap := c.heap.set r (f.finish o) }.finalSuspend r (f.finish o))

/-- A statement ended, with these things left to do in the body. -/
def flow (c : Config ω υ ξ) (r : ℕ) (f : Flow υ ξ) : List (Ctx ω υ ξ) → Option (Config ω υ ξ)
  | [] => c.complete r f.outcome
  | .bind next :: K =>
    match f with
    | .next v => some (c.go (.exec r (next v) K))
    | _ => some (c.go (.flow r f K))
  | .catch handler :: K =>
    match f with
    | .exc e => some (c.go (.exec r (handler e) K))
    | _ => some (c.go (.flow r f K))
  | .all rest got :: K =>
    match f with
    | .next v => some (c.go (.pack r rest (got ++ [v]) K))
    | _ => some (c.go (.flow r f K))

/-- The pack expansion of `when_all`. -/
def pack (W : World ω υ) (c : Config ω υ ξ) (r : ℕ) (tasks : List ℕ) (got : List υ)
    (K : List (Ctx ω υ ξ)) : Config ω υ ξ :=
  match tasks with
  | [] => c.go (.flow r (.ret (W.tuple got)) K)
  | task :: rest => c.go (.await r task false (.all rest got :: K))

/-- A coroutine is resumed. -/
def resume (c : Config ω υ ξ) (r : ℕ) : Option (Config ω υ ξ) :=
  (c.heap.frame r).bind (fun f =>
    let c' := { c with heap := c.heap.set r { f with code := .running } }
    match f.code with
    | .start body => some (c'.go (.exec r body []))
    | .startAll tasks => some (c'.go (.pack r tasks [] []))
    | .startWait task => some (c'.go (.await r task false [.bind .coReturn]))
    | .awaiting task temporary K => c'.awaitResume r task temporary K
    | .running => none
    | .final => none)

/-- `resume` returns to its caller. -/
def resumed (W : World ω υ) (c : Config ω υ ξ) : Option (Config ω υ ξ) :=
  match c.resumers with
  | .detach r K :: rest => some { c with control := .flow r (.next W.unit) K, resumers := rest }
  | .syncWait r :: rest => some { c with control := .acquire r, resumers := rest }
  | [] => none

/-- The end of `sync_wait`, after `start`. -/
def acquire (c : Config ω υ ξ) (r : ℕ) : Option (Config ω υ ξ) :=
  if c.released then
    (c.heap.frame r).bind (fun f => f.promise.outcome.map (fun o =>
      { c with control := .returned o, released := false }))
  else none

/-- **One step.** -/
def step (W : World ω υ) (c : Config ω υ ξ) : Option (Config ω υ ξ) :=
  match c.control with
  | .exec r s K => c.exec W r s K
  | .flow r f K => c.flow r f K
  | .await r task temporary K => c.await r task temporary K
  | .pack r tasks got K => some (c.pack W r tasks got K)
  | .transfer (some r) => c.resume r
  | .transfer none => c.resumed W
  | .acquire r => c.acquire r
  | .returned _ => none

/-- Take steps until `sync_wait` has returned, at most so many. -/
def run (W : World ω υ) : ℕ → Config ω υ ξ → Option (Outcome υ ξ × List ω)
  | 0, _ => none
  | fuel + 1, c =>
    match c.control with
    | .returned o => some (o, c.trace)
    | _ => (c.step W).bind (run W fuel)

end Config

/-- The runner of `sync_wait`, before `start`. -/
def runner (task : ℕ) : Frame ω υ ξ := ⟨.new, true, .startWait task, []⟩

/-- **`sync_wait`** of a task: the task and the runner are created, and the runner is
resumed. -/
def start (task : Task ω υ ξ) : Config ω υ ξ :=
  let created := task.create Heap.empty
  let waiting := created.2.alloc (runner created.1)
  ⟨waiting.2, .transfer (some waiting.1), [.syncWait waiting.1], false, []⟩

/-- What `sync_wait` returns or rethrows, and the effects performed, within so many
steps. -/
def syncWait (W : World ω υ) (fuel : ℕ) (task : Task ω υ ξ) : Option (Outcome υ ξ × List ω) :=
  (start task).run W fuel

end Async
