import SapCore.Machine
import SapCore.SpscQueue

/-!
# The job system

`job_system` owns one ring of jobs per worker thread. `submit` takes the next
queue in turn from `m_next_queue`, pushes into the first queue from there on
that is not full, and then adds one to `m_pending_jobs`; a worker pops from its
own queue, runs the job, and subtracts one; `wait_idle` spins until it loads a
zero; the destructor asks every worker to stop and joins them, and a worker that
sees the request empties its queue before it exits.

The model makes one access to shared memory at a time, for any number of client
threads and with jobs that call `submit` themselves. Where a thread stands is
`Submit` inside a call of `submit`, `Worker` inside `worker_main`, `Client` for
every other thread. `State` is the memory of the job system with the places of
all threads and the history of the run: which jobs went into which queue, came
out of it, were run and were subtracted, and which calls of `submit` returned
what. A job is named by the call of `submit` that brought it.

Running a job is one step, in which nothing of the job system is touched but by
the calls of `submit` that the job makes before it ends.
-/

/-- A job, named by the number of the call of `submit` it came with, from one
on; zero is the empty function that the slots of a queue hold at first. -/
abbrev Job : Type := ℕ

namespace JobSystem

/-- `queue_capacity`. -/
def queueCapacity : ℕ := 4096

/-- **Where a call of `submit` stands.** -/
inductive Submit where
  /-- `m_next_queue.fetch_add(1)`. -/
  | fetchQueue (job : Job)
  /-- Inside `try_push` on the queue of the `i`-th round of the loop. -/
  | push (start i : ℕ) (pc : SpscQueue.Push Job)
  /-- `m_pending_jobs.fetch_add(1)`. -/
  | count (job : Job)
  deriving DecidableEq, Repr

/-- **Where a worker stands** in `worker_main`; `draining` tells the loop after
the stop request from the loop before it. -/
inductive Worker where
  /-- `stop.stop_requested()`. -/
  | checkStop
  /-- Inside `try_pop`. -/
  | pop (draining : Bool) (pc : SpscQueue.Pop Job)
  /-- Inside `job()`, and there perhaps inside a call of `submit`. -/
  | running (draining : Bool) (job : Job) (call : Option Submit)
  /-- `m_pending_jobs.fetch_sub(1)`. -/
  | subtract (draining : Bool) (job : Job)
  /-- `worker_main` has returned. -/
  | exited
  deriving DecidableEq, Repr

/-- **Where any other thread stands.** -/
inductive Client where
  /-- Outside the job system. -/
  | idle
  /-- Inside `submit`. -/
  | submitting (call : Submit)
  /-- Inside `wait_idle`; `since` are the jobs accepted when the call began. -/
  | waiting (since : List Job)
  /-- Inside the destructor, about to call `request_stop` on thread `i`. -/
  | stopping (i : ℕ)
  /-- Inside the destructor, about to join thread `i`. -/
  | joining (i : ℕ)
  /-- The destructor has returned. -/
  | destroyed
  deriving DecidableEq, Repr

/-- A thread that may call `submit`. -/
inductive Thread where
  | client (t : ℕ)
  | worker (w : ℕ)
  deriving DecidableEq, Repr

/-- **The job system in the middle of a run.** -/
structure State where
  /-- `m_queues`. -/
  queues : ℕ → SpscQueue Job
  /-- `m_next_queue`. -/
  nextQueue : UInt32
  /-- `m_pending_jobs`. -/
  pendingJobs : UInt32
  /-- The stop flag of each thread of `m_threads`. -/
  stopRequested : ℕ → Bool
  /-- The workers. -/
  workers : ℕ → Worker
  /-- The other threads. -/
  clients : ℕ → Client
  /-- The number of calls of `submit` made so far. -/
  submitted : ℕ
  /-- The jobs whose call of `submit` returned `true`. -/
  accepted : List Job
  /-- The jobs whose call of `submit` returned `false`. -/
  rejected : List Job
  /-- The jobs pushed to each queue, in order. -/
  pushed : ℕ → List Job
  /-- The jobs each worker took from its queue, in order. -/
  popped : ℕ → List Job
  /-- The jobs each worker ran to the end, in order. -/
  finished : ℕ → List Job
  /-- The jobs for which each worker made its subtraction, in order. -/
  subtracted : ℕ → List Job

/-! ## The place of a thread inside `submit` -/

/-- The call of `submit` a worker is inside: one made by the job it runs. -/
def Worker.call : Worker → Option Submit
  | .checkStop => none
  | .pop _ _ => none
  | .running _ _ call => call
  | .subtract _ _ => none
  | .exited => none

/-- The call of `submit` a client is inside. -/
def Client.call : Client → Option Submit
  | .idle => none
  | .submitting call => some call
  | .waiting _ => none
  | .stopping _ => none
  | .joining _ => none
  | .destroyed => none

/-- The call of `submit` a thread is inside. -/
def State.call (s : State) : Thread → Option Submit
  | .client t => (s.clients t).call
  | .worker w => (s.workers w).call

/-- A running job's place in `submit`, replaced. -/
def Worker.setCall (call : Option Submit) : Worker → Worker
  | .running draining job _ => .running draining job call
  | pc => pc

/-- A client's place, by the call of `submit` it is inside. -/
def Client.ofCall : Option Submit → Client
  | none => .idle
  | some call => .submitting call

/-- **Put a thread at a place inside `submit`**, or back outside it. -/
def State.setCall (s : State) (call : Option Submit) : Thread → State
  | .client t => { s with clients := Function.update s.clients t (Client.ofCall call) }
  | .worker w =>
    { s with workers := Function.update s.workers w ((s.workers w).setCall call) }

/-! ## The operations, one access at a time -/

/-- `(start + i) % count`, in 32 bits. -/
def queueIndex (n start i : ℕ) : ℕ := (start + i) % 2 ^ 32 % n

theorem queueIndex_lt {n : ℕ} (hn : 0 < n) (start i : ℕ) : queueIndex n start i < n :=
  Nat.mod_lt _ hn

/-- **`submit`**, on `n` queues: the memory after one access, and where the
call then stands or what it returns. -/
def submit (n : ℕ) (s : State) : Submit → State × (Submit ⊕ Bool)
  | .fetchQueue job =>
    ({ s with nextQueue := s.nextQueue + 1 },
      .inl (.push (s.nextQueue.toNat % n) 0 (.loadHead job)))
  | .push start i pc =>
    let w := queueIndex n start i
    let (q, out) := SpscQueue.tryPush queueCapacity (s.queues w) pc
    let s' := { s with
      queues := Function.update s.queues w q
      pushed := Function.update s.pushed w (s.pushed w ++ pc.published) }
    match out with
    | .inl pc' => (s', .inl (.push start i pc'))
    | .inr true => (s', .inl (.count pc.item))
    | .inr false =>
      if i + 1 < n then (s', .inl (.push start (i + 1) (.loadHead pc.item)))
      else ({ s' with rejected := s.rejected ++ [pc.item] }, .inr false)
  | .count job =>
    ({ s with pendingJobs := s.pendingJobs + 1, accepted := s.accepted ++ [job] }, .inr true)

/-- **`worker_main`** of worker `w`, outside the calls of `submit` of the job it
runs: one access. -/
def workerMain (s : State) (w : ℕ) : Option State :=
  match s.workers w with
  | .checkStop =>
    some { s with workers := Function.update s.workers w (.pop (s.stopRequested w) .loadTail) }
  | .pop draining pc =>
    let (q, out) := SpscQueue.tryPop queueCapacity (s.queues w) pc
    let pc' : Worker := match out with
      | .inl pc' => .pop draining pc'
      | .inr (some job) => .running draining job none
      | .inr none => if draining then .exited else .checkStop
    some { s with
      queues := Function.update s.queues w q
      popped := Function.update s.popped w (s.popped w ++ pc.taken)
      workers := Function.update s.workers w pc' }
  | .running draining job _ =>
    some { s with
      finished := Function.update s.finished w (s.finished w ++ [job])
      workers := Function.update s.workers w (.subtract draining job) }
  | .subtract draining job =>
    some { s with
      pendingJobs := s.pendingJobs - 1
      subtracted := Function.update s.subtracted w (s.subtracted w ++ [job])
      workers := Function.update s.workers w
        (if draining then .pop true .loadTail else .checkStop) }
  | .exited => none

/-- **`wait_idle` and the destructor** as client `t` runs them: one access.
Joining a thread blocks until it has exited. -/
def clientNext (n : ℕ) (s : State) (t : ℕ) : Option State :=
  match s.clients t with
  | .waiting since =>
    some { s with
      clients := Function.update s.clients t
        (if s.pendingJobs = 0 then .idle else .waiting since) }
  | .stopping i =>
    if i < n then
      some { s with
        stopRequested := Function.update s.stopRequested i true
        clients := Function.update s.clients t (.stopping (i + 1)) }
    else some { s with clients := Function.update s.clients t (.joining 0) }
  | .joining i =>
    if i < n then
      if s.workers i = .exited then
        some { s with clients := Function.update s.clients t (.joining (i + 1)) }
      else none
    else some { s with clients := Function.update s.clients t .destroyed }
  | _ => none

/-! ## Runs -/

/-- **Who does what next.** -/
inductive Action where
  /-- A thread calls `submit`: a client that is outside the job system, or the
  job a worker runs. -/
  | submit (τ : Thread)
  /-- A client calls `wait_idle`. -/
  | waitIdle (t : ℕ)
  /-- A client destroys the job system. -/
  | destroy (t : ℕ)
  /-- A thread makes its next access. -/
  | next (τ : Thread)
  deriving DecidableEq, Repr

/-- A thread that can call `submit`: it is not inside a call of the job system,
unless as the job a worker runs. -/
def State.canSubmit (n : ℕ) (s : State) : Thread → Bool
  | .client t => s.clients t = .idle
  | .worker w => decide (w < n) && match s.workers w with
    | .running _ _ none => true
    | _ => false

/-- **One step of one thread**, with `n` workers. -/
def step (n : ℕ) (s : State) : Action → Option State
  | .submit τ =>
    if s.canSubmit n τ then
      some ({ s with submitted := s.submitted + 1 }.setCall
        (some (.fetchQueue (s.submitted + 1))) τ)
    else none
  | .waitIdle t =>
    if s.clients t = .idle then
      some { s with clients := Function.update s.clients t (.waiting s.accepted) }
    else none
  | .destroy t =>
    if s.clients t = .idle then
      some { s with clients := Function.update s.clients t (.stopping 0) }
    else none
  | .next τ =>
    match s.call τ with
    | some call =>
      let (s', out) := submit n s call
      some (s'.setCall out.getLeft? τ)
    | none =>
      match τ with
      | .client t => clientNext n s t
      | .worker w => if w < n then workerMain s w else none

/-- **The job system as constructed**, with `n` workers: the queues are empty,
the counters zero, and no thread has done anything yet. -/
def machine (n : ℕ) : Machine State Action where
  init := {
    queues := fun _ => ⟨0, 0, fun _ => 0⟩
    nextQueue := 0
    pendingJobs := 0
    stopRequested := fun _ => false
    workers := fun _ => .checkStop
    clients := fun _ => .idle
    submitted := 0
    accepted := []
    rejected := []
    pushed := fun _ => []
    popped := fun _ => []
    finished := fun _ => []
    subtracted := fun _ => [] }
  step := step n

end JobSystem
