import SapCore.TaskMachine
import SapCore.Threads

/-!
# The runtime of the coroutines

How programs with I/O are run: by coroutines on one thread, with the `Executor`.
`Task`, `SpawnHandle` and `IoAwaiter` work together through three places. The promise of a
frame has the continuation, to which control is transferred when the body ends, and the
flag (`detached`, `handle_dropped`) that says that the frame destroys itself instead. The
frame has the point at which the coroutine is suspended. The ready queue of the executor
has the coroutines whose I/O has a result.

A coroutine that is resumed runs until it, or one that it transferred control to, is
suspended with nobody to transfer to; then the call of `resume` returns. Such calls are
made by the loop of the executor, by `spawn`, and by `detach`, the last two by coroutines
too, so that they nest (`Caller`).

`spawn` makes a coroutine of its own, `spawn_runner`, which takes the task by value and
awaits it; the handle holds the frame of the runner, and the frame of the task is
destroyed with it. A task awaited in place is destroyed after the `co_await`.

A step fails where the source's behaviour is undefined: a frame is used that is not there,
a coroutine is resumed that is not suspended, a result is taken that was not stored or
was moved out.
-/

namespace Coroutines

/-- Where a coroutine goes on after the `co_await` of a task. -/
inductive After (σ υ ξ : Type) where
  /-- In its body; the task was created in place, and is destroyed. -/
  | statement (next : Outcome υ ξ → σ)
  /-- At the end of `spawn_runner`, which returns the value or throws the exception. -/
  | runner

/-- **The point at which a coroutine is suspended.** -/
inductive Code (σ α υ ξ : Type) where
  /-- `initial_suspend`, of a task. -/
  | start (s : σ)
  /-- `initial_suspend`, of the runner of a task. -/
  | startRunner (task : ℕ)
  /-- It is not suspended. -/
  | running
  /-- `co_await` of a task. -/
  | awaiting (task : ℕ) (after : After σ υ ξ)
  /-- `co_await` of a `SpawnHandle`. -/
  | awaitingSpawn (h : ℕ) (next : Outcome υ ξ → σ)
  /-- `co_await` of an `IoAwaiter`. -/
  | awaitingIo (a : α) (next : AwaitResult → σ)
  /-- `final_suspend`. -/
  | final

/-- `done` of a coroutine handle. -/
def Code.done {σ α υ ξ : Type} : Code σ α υ ξ → Bool
  | .final => true
  | _ => false

theorem Code.done_iff {σ α υ ξ : Type} {code : Code σ α υ ξ} :
    code.done = true ↔ code = .final := by
  cases code with
  | final => simp [done]
  | _ => simp [done]

/-- **A frame.** `param` is the task that a runner was given; `taken` says that the value
was moved out of the promise. -/
structure Frame (σ α υ ξ : Type) where
  promise : Async.Promise υ ξ
  code : Code σ α υ ξ
  param : Option ℕ
  taken : Bool

namespace Frame

variable {σ α υ ξ : Type}

/-- The frame of a new task. -/
def task (s : σ) : Frame σ α υ ξ := ⟨.new, .start s, none, false⟩

/-- The frame of a new runner. -/
def runner (task : ℕ) : Frame σ α υ ξ := ⟨.new, .startRunner task, some task, false⟩

/-- `detached = true`, or `handle_dropped = true`. -/
def release (f : Frame σ α υ ξ) : Frame σ α υ ξ :=
  { f with promise := { f.promise with detached := true } }

/-- `continuation = awaiter`. -/
def continueWith (f : Frame σ α υ ξ) (r : ℕ) : Frame σ α υ ξ :=
  { f with promise := { f.promise with continuation := some r } }

/-- The coroutine is suspended, or goes on. -/
def goTo (f : Frame σ α υ ξ) (code : Code σ α υ ξ) : Frame σ α υ ξ := { f with code := code }

/-- The body ended, and the promise has its result. -/
def finish (f : Frame σ α υ ξ) (o : Outcome υ ξ) : Frame σ α υ ξ :=
  { f with promise := f.promise.store o, code := .final }

/-- What `await_resume` returns or rethrows: `exc` is looked at first, and a value is
there until it is moved out. -/
def result (f : Frame σ α υ ξ) : Option (Outcome υ ξ) :=
  match f.promise.exc, f.taken with
  | some e, _ => some (.exception e)
  | none, false => f.promise.value.map .value
  | none, true => none

end Frame

/-- **Who has control.** -/
inductive Control (σ : Type) where
  /-- Nobody but the loop of the executor, or the program around it. -/
  | idle
  /-- A coroutine, at a point of its body. -/
  | exec (r : ℕ) (s : σ)
  /-- Control is transferred to a coroutine, or to nobody. -/
  | transfer (r : Option ℕ)
  deriving DecidableEq

/-- Who called `resume`. -/
inductive Caller (σ : Type) where
  /-- The loop of the executor, or the program around it. -/
  | main
  /-- A coroutine, which goes on at a point. -/
  | coroutine (r : ℕ) (s : σ)

/-- **The runtime**: the executor, the frames, the number of the next one, who has
control, the calls of `resume` that are open, and the effects performed. -/
structure Runtime (σ ω α τ υ ξ : Type) where
  executor : Executor α τ ℕ
  frame : ℕ → Option (Frame σ α υ ξ)
  next : ℕ
  control : Control σ
  callers : List (Caller σ)
  trace : List ω

namespace Runtime

variable {σ ω α τ η υ ξ : Type}

/-- Before anything is started. -/
def new : Runtime σ ω α τ υ ξ := ⟨.new, fun _ => none, 0, .idle, [], []⟩

/-- Pass control on. -/
def go (c : Runtime σ ω α τ υ ξ) (control : Control σ) : Runtime σ ω α τ υ ξ :=
  { c with control := control }

/-- Write a frame. -/
def setFrame (c : Runtime σ ω α τ υ ξ) (r : ℕ) (f : Frame σ α υ ξ) : Runtime σ ω α τ υ ξ :=
  { c with frame := Function.update c.frame r (some f) }

/-- A coroutine is created, under the number of the next frame. -/
def create (c : Runtime σ ω α τ υ ξ) (f : Frame σ α υ ξ) : Runtime σ ω α τ υ ξ :=
  { c with frame := Function.update c.frame c.next (some f), next := c.next + 1 }

/-- A frame is destroyed, and with the frame of a runner that of its task. -/
def destroy (c : Runtime σ ω α τ υ ξ) (r : ℕ) : Option (Runtime σ ω α τ υ ξ) :=
  (c.frame r).map (fun f =>
    { c with frame := fun i => if i = r ∨ f.param = some i then none else c.frame i })

/-- `resume` is called on a coroutine. -/
def call (c : Runtime σ ω α τ υ ξ) (r : ℕ) (back : Caller σ) : Runtime σ ω α τ υ ξ :=
  { c with control := .transfer (some r), callers := back :: c.callers }

/-! ## Tasks and runners -/

/-- `await_suspend` of the final awaiter: the frame destroys itself, or control goes to
the continuation. -/
def finalSuspend (c : Runtime σ ω α τ υ ξ) (r : ℕ) (f : Frame σ α υ ξ) :
    Option (Runtime σ ω α τ υ ξ) :=
  if f.promise.detached then (c.destroy r).map (fun c' => c'.go (.transfer none))
  else some (c.go (.transfer f.promise.continuation))

/-- The body of a coroutine ended: the promise takes the result, and `final_suspend` is
awaited. -/
def complete (c : Runtime σ ω α τ υ ξ) (r : ℕ) (o : Outcome υ ξ) :
    Option (Runtime σ ω α τ υ ξ) :=
  (c.frame r).bind (fun f => (c.setFrame r (f.finish o)).finalSuspend r (f.finish o))

/-- `await_resume`, of a task or of a handle. -/
def take (c : Runtime σ ω α τ υ ξ) (r : ℕ) : Option (Outcome υ ξ × Runtime σ ω α τ υ ξ) :=
  (c.frame r).bind (fun f => f.result.map (fun o => (o, c.setFrame r { f with taken := true })))

/-- What follows the `co_await` of a task. -/
def awaitResume (c : Runtime σ ω α τ υ ξ) (r task : ℕ) (after : After σ υ ξ) :
    Option (Runtime σ ω α τ υ ξ) :=
  (c.take task).bind (fun taken =>
    match after with
    | .statement next => (taken.2.destroy task).map (fun c' => c'.go (.exec r (next taken.1)))
    | .runner => taken.2.complete r taken.1)

/-- `co_await` of a task: `await_ready`, and `await_suspend`. -/
def await (c : Runtime σ ω α τ υ ξ) (r task : ℕ) (after : After σ υ ξ) :
    Option (Runtime σ ω α τ υ ξ) :=
  (c.frame task).bind (fun f => (c.frame r).bind (fun g =>
    if f.code.done then c.awaitResume r task after
    else
      some (((c.setFrame r (g.goTo (.awaiting task after))).setFrame task (f.continueWith r)).go
        (.transfer (some task)))))

/-- `co_await` of a task created in place. -/
def coAwait (c : Runtime σ ω α τ υ ξ) (r : ℕ) (s : σ) (next : Outcome υ ξ → σ) :
    Option (Runtime σ ω α τ υ ξ) :=
  (c.create (.task s)).await r c.next (.statement next)

/-- `detach` of a task created in place. -/
def detach (c : Runtime σ ω α τ υ ξ) (s : σ) (back : Caller σ) : Runtime σ ω α τ υ ξ :=
  (c.create (Frame.task s).release).call c.next back

/-- `spawn` of a task created in place; the caller goes on with the handle of the
runner. -/
def spawn (c : Runtime σ ω α τ υ ξ) (s : σ) (back : ℕ → Caller σ) : Runtime σ ω α τ υ ξ :=
  ((c.create (.task s)).create (.runner c.next)).call (c.next + 1) (back (c.next + 1))

/-- `co_await` of a `SpawnHandle`; `await_suspend` returns to whoever called `resume`. -/
def join (c : Runtime σ ω α τ υ ξ) (r h : ℕ) (next : Outcome υ ξ → σ) :
    Option (Runtime σ ω α τ υ ξ) :=
  (c.frame h).bind (fun f => (c.frame r).bind (fun g =>
    if f.code.done then (c.take h).map (fun taken => taken.2.go (.exec r (next taken.1)))
    else
      some (((c.setFrame r (g.goTo (.awaitingSpawn h next))).setFrame h (f.continueWith r)).go
        (.transfer none))))

/-- `SpawnHandle::release`: the frame of a runner that is done is destroyed, and another
is told to destroy itself. -/
def drop (c : Runtime σ ω α τ υ ξ) (h : ℕ) : Option (Runtime σ ω α τ υ ξ) :=
  (c.frame h).bind (fun f =>
    if f.code.done then c.destroy h else some (c.setFrame h f.release))

/-- A coroutine to which control is transferred goes on. -/
def resume (c : Runtime σ ω α τ υ ξ) (r : ℕ) : Option (Runtime σ ω α τ υ ξ) :=
  (c.frame r).bind (fun f =>
    match f.code with
    | .start s => some ((c.setFrame r (f.goTo .running)).go (.exec r s))
    | .startRunner task => (c.setFrame r (f.goTo .running)).await r task .runner
    | .awaiting task after => (c.setFrame r (f.goTo .running)).awaitResume r task after
    | .awaitingSpawn h next =>
      ((c.setFrame r (f.goTo .running)).take h).map (fun taken =>
        taken.2.go (.exec r (next taken.1)))
    | .awaitingIo _ _ => none
    | .running => none
    | .final => none)

/-- A call of `resume` returns. -/
def returned (c : Runtime σ ω α τ υ ξ) : Option (Runtime σ ω α τ υ ξ) :=
  match c.callers with
  | .main :: callers => some { c with control := .idle, callers := callers }
  | .coroutine r s :: callers => some { c with control := .exec r s, callers := callers }
  | [] => none

/-- A coroutine does what it does at a point, unless that is I/O. -/
def exec (c : Runtime σ ω α τ υ ξ) (r : ℕ) : Instr σ ω τ η υ ξ → Option (Runtime σ ω α τ υ ξ)
  | .coReturn o => c.complete r o
  | .effect w next => some { c with control := .exec r next, trace := c.trace ++ [w] }
  | .coAwait task next => c.coAwait r task next
  | .detach task next => some (c.detach task (.coroutine r next))
  | .spawn task next => some (c.spawn task (fun h => .coroutine r (next h)))
  | .join h next => c.join r h next
  | .drop h next => (c.drop h).map (fun c' => c'.go (.exec r next))
  | .io _ _ _ => none

/-! ## I/O -/

variable [DecidableEq α] [DecidableEq τ] [DecidableEq η] (setup : Setup α τ η)

/-- `co_await` of an `IoAwaiter` that is constructed for it: the coroutine goes on with the
result, if the awaiter is ready, and is suspended otherwise. -/
def awaitIo (c : Runtime σ ω α τ υ ξ) (r : ℕ) (a : α) (add : Option AddError)
    (next : AwaitResult → σ) : Option (Runtime σ ω α τ υ ξ) :=
  (c.executor.step setup (.coAwait a r add)).bind (fun e =>
    match (e.awaiter a).phase with
    | .resumed result => some { c with executor := e, control := .exec r (next result) }
    | _ =>
      (c.frame r).map (fun f =>
        ({ c with executor := e }.setFrame r (f.goTo (.awaitingIo a next))).go (.transfer none)))

/-- The loop of the executor takes the coroutine at the front of the ready queue and resumes
it, with the result of its I/O. -/
def resumeFront (c : Runtime σ ω α τ υ ξ) : Option (Runtime σ ω α τ υ ξ) :=
  c.executor.ready.head?.bind (fun entry =>
    (c.executor.step setup .resume).bind (fun e =>
      (c.frame entry.1).bind (fun f =>
        match f.code with
        | .awaitingIo a next =>
          match (e.awaiter a).phase with
          | .resumed result =>
            some { c.setFrame entry.1 (f.goTo .running) with
              executor := e
              control := .exec entry.1 (next result)
              callers := .main :: c.callers }
          | _ => none
        | _ => none)))

/-! ## The machine -/

/-- What the outside and the kernel decide. -/
inductive Label (σ α τ : Type) where
  /-- Whoever has control goes on, but not with I/O. -/
  | run
  /-- A coroutine awaits I/O, with this awaiter; it is registered, or there is this error. -/
  | await (a : α) (add : Option AddError)
  /-- The loop resumes the coroutine at the front of the ready queue. -/
  | loop
  /-- The reactor reports a batch of tokens to the loop. -/
  | trigger (tokens : List α)
  /-- `request_stop`, by whoever has control, up to its loop. -/
  | requestStop (t : τ)
  /-- A turn of that loop, or its end. -/
  | turn
  /-- The destructor of an awaiter. -/
  | destroyAwaiter (a : α)
  /-- The program around the loop detaches a task, spawns one, or drops a handle. -/
  | detach (s : σ)
  | spawn (s : σ)
  | drop (h : ℕ)

/-- An event of the executor. -/
def event (c : Runtime σ ω α τ υ ξ) (e : Executor.Event α τ ℕ) :
    Option (Runtime σ ω α τ υ ξ) :=
  (c.executor.step setup e).map (fun executor => { c with executor := executor })

variable (prog : σ → Instr σ ω τ η υ ξ)

/-- Whoever has control goes on. -/
def run (c : Runtime σ ω α τ υ ξ) : Option (Runtime σ ω α τ υ ξ) :=
  match c.control with
  | .idle => none
  | .exec r s => c.exec r (prog s)
  | .transfer (some r) => c.resume r
  | .transfer none => c.returned

/-- **One step.** While a stop calls its callbacks nothing else happens; the loop takes
coroutines and waits for the reactor, and the program around it moves, while no coroutine
runs. The awaiter of a `co_await` is a new one, for the handle and the token it is given. -/
def step (c : Runtime σ ω α τ υ ξ) (label : Label σ α τ) : Option (Runtime σ ω α τ υ ξ) :=
  match c.executor.draining, label with
  | some _, .turn => c.event setup .turn
  | some _, _ => none
  | none, .turn => none
  | none, .requestStop t => c.event setup (.requestStop t)
  | none, .destroyAwaiter a => c.event setup (.destroy a)
  | none, .run => c.run prog
  | none, .await a add =>
    match c.control with
    | .exec r s =>
      match prog s with
      | .io handle token next =>
        if (c.executor.awaiter a).phase = .idle ∧ setup.handle a = handle ∧ setup.token a = token
        then c.awaitIo setup r a add next
        else none
      | _ => none
    | _ => none
  | none, label =>
    match c.control, label with
    | .idle, .loop => c.resumeFront setup
    | .idle, .trigger tokens => c.event setup (.trigger tokens)
    | .idle, .detach s => some (c.detach s .main)
    | .idle, .spawn s => some (c.spawn s (fun _ => .main))
    | .idle, .drop h => c.drop h
    | _, _ => none

/-- **The runtime, as a machine.** -/
def machine : Machine (Runtime σ ω α τ υ ξ) (Label σ α τ) := ⟨new, step setup prog⟩

/-! ## What comes from outside -/

omit [DecidableEq α] [DecidableEq τ] [DecidableEq η] in
/-- The result of the I/O of an awaiter whose `co_await` is over. -/
def result (c : Runtime σ ω α τ υ ξ) (a : α) : Option (Input σ τ η) :=
  match (c.executor.awaiter a).phase with
  | .resumed result => some (.result (setup.handle a) (setup.token a) result)
  | _ => none

variable {c : Runtime σ ω α τ υ ξ} {a : α}

omit [DecidableEq α] [DecidableEq τ] [DecidableEq η] in
theorem result_of_phase {result : AwaitResult}
    (hphase : (c.executor.awaiter a).phase = .resumed result) :
    c.result setup a = some (.result (setup.handle a) (setup.token a) result) := by
  unfold Runtime.result
  rw [hphase]

omit [DecidableEq α] [DecidableEq τ] [DecidableEq η] in
theorem result_of_suspended (hphase : (c.executor.awaiter a).phase = .suspended) :
    c.result setup a = none := by
  unfold Runtime.result
  rw [hphase]

omit [DecidableEq α] [DecidableEq τ] [DecidableEq η] in
/-- **The input of a step**, from one state to another: the program around the loop detaches
or spawns a task, which is numbered as its first frame, that of the runner where it is
spawned; and a coroutine goes on after the `co_await` of I/O, at once or when the loop resumes
it. -/
def input (c : Runtime σ ω α τ υ ξ) : Label σ α τ → Runtime σ ω α τ υ ξ → Option (Input σ τ η)
  | .detach s, _ => some (.task c.next s)
  | .spawn s, _ => some (.task (c.next + 1) s)
  | .await a _, c' => c'.result setup a
  | .loop, c' =>
    c.executor.ready.head?.bind (fun entry => entry.2.bind (fun a => c'.result setup a))
  | _, _ => none

/-- **The runtime, with a record of its input.** -/
def observed : Machine (Runtime σ ω α τ υ ξ × List (Input σ τ η)) (Label σ α τ) :=
  (machine setup prog).recording
    (fun c label c' inputs => inputs ++ (c.input setup label c').toList) []

end Runtime

end Coroutines
