import SapCore.JobSystem
import SapCore.SpscQueueMemory

/-!
# The job system with the memory orders it asks for

`JobSystem` lets all threads see the same memory. Here they share a `SharedMemory`: the queues are
`Site`s in it, `m_next_queue` is counted relaxed, `m_pending_jobs` is changed with release and
loaded with acquire, and a load may get any message that the thread has not gone past. One thread,
the owner, submits, waits and destroys.

What a job does is in the model too, for it is what the orders are there for. Before it calls
`submit` the owner writes what the job is to work on (`input`), the job reads it and writes what
comes out (`output`), all with plain accesses, and after `wait_idle` the owner may want to read
that. `work` says what a job computes.

Two guarantees come from the standard library. A stop request that is seen synchronizes with the
thread that sees it, so that the flag is a location with release and acquire; and the end of a
thread synchronizes with the `join` that waits for it, so that the owner then takes over the view
of the thread.

`Ledger` is the history of `m_pending_jobs`: its messages are the values after each entry.
-/

namespace JobSystemMemory

open JobSystem (Submit Client Thread queueIndex queueCapacity)

/-- The thread that submits, waits and destroys. -/
abbrev owner : Thread := .client 0

/-- **The atomic locations.** -/
inductive Location where
  | head (w : ℕ)
  | tail (w : ℕ)
  | nextQueue
  | pendingJobs
  /-- The stop flag of thread `w`. -/
  | stop (w : ℕ)
  deriving DecidableEq, Repr

/-- **The plain locations.** -/
inductive Cell where
  /-- `m_buffer[i]` of queue `w`. -/
  | slot (w i : ℕ)
  /-- What a job works on. -/
  | input (job : Job)
  /-- What comes out of it. -/
  | output (job : Job)
  deriving DecidableEq, Repr

/-- `*m_queues[w]`. -/
def queue (w : ℕ) : SpscQueue.Site Thread Location Cell where
  producer := owner
  consumer := .worker w
  head := .head w
  tail := .tail w
  slot := .slot w
  indices_ne := nofun
  slot_injective _ _ h := by cases h; rfl

/-- The memory of the job system. -/
abbrev Memory : Type := SharedMemory Thread Location ℕ Cell ℕ

/-- **Where a worker stands** in `worker_main`. -/
inductive Worker where
  /-- `stop.stop_requested()`. -/
  | checkStop
  /-- Inside `try_pop`. -/
  | pop (draining : Bool) (pc : SpscQueue.Pop Job)
  /-- Inside `job()`, before it reads its input. -/
  | readInput (draining : Bool) (job : Job)
  /-- Inside `job()`, before it writes its output. -/
  | writeOutput (draining : Bool) (job : Job) (x : ℕ)
  /-- `m_pending_jobs.fetch_sub(1)`. -/
  | subtract (draining : Bool) (job : Job)
  /-- `worker_main` has returned. -/
  | exited
  deriving DecidableEq, Repr

/-- **A change of `m_pending_jobs`.** -/
inductive Entry where
  | added (job : Job)
  | subtracted (w : ℕ) (job : Job)
  deriving DecidableEq, Repr

/-- **The job system in the middle of a run.** -/
structure State where
  memory : Memory
  /-- Where the owner stands. -/
  owner : Client
  workers : ℕ → Worker
  /-- What the calls of `submit` were made with, in order; the `i`-th is that of job `i + 1`. -/
  inputs : List ℕ
  /-- The changes of `m_pending_jobs`, in order. -/
  ledger : List Entry
  /-- The jobs pushed to each queue, in order. -/
  pushed : ℕ → List Job
  /-- The jobs each worker took from its queue, in order. -/
  popped : ℕ → List Job
  /-- The jobs whose output each worker has written, in order. -/
  finished : ℕ → List Job

/-- The jobs whose call of `submit` returned `true`. -/
def Entry.accepted : Entry → Option Job
  | .added job => some job
  | .subtracted _ _ => none

/-- The jobs whose call of `submit` returned `true`, in order. -/
def State.accepted (s : State) : List Job := s.ledger.filterMap Entry.accepted

/-! ## The threads, one access at a time -/

/-- Where `submit` goes on after an access of `try_push`. -/
def afterPush (n start i : ℕ) (job : Job) : SpscQueue.Push Job ⊕ Bool → Client
  | .inl pc => .submitting (.push start i pc)
  | .inr true => .submitting (.count job)
  | .inr false =>
    if i + 1 < n then .submitting (.push start (i + 1) (.loadHead job)) else .idle

/-- Where `worker_main` goes on after an access of `try_pop`. -/
def afterPop (draining : Bool) : SpscQueue.Pop Job ⊕ Option Job → Worker
  | .inl pc => .pop draining pc
  | .inr (some job) => .readInput draining job
  | .inr none => if draining then .exited else .checkStop

/-- Where `worker_main` goes on after a job. -/
def afterJob (draining : Bool) : Worker := if draining then .pop true .loadTail else .checkStop

/-- **`submit`**, `wait_idle` and the destructor, on `n` queues: the next access of the owner. A
load gets the `i`-th message. -/
def ownerNext (n : ℕ) (s : State) (i : ℕ) : Option State :=
  match s.owner with
  | .submitting (.fetchQueue job) =>
    (s.memory.fetchRelaxed owner .nextQueue (fun v => (v + 1) % 2 ^ 32)).map (fun r =>
      { s with memory := r.2, owner := .submitting (.push (r.1 % n) 0 (.loadHead job)) })
  | .submitting (.push start round pc) =>
    let w := queueIndex n start round
    ((queue w).tryPush queueCapacity s.memory i pc).map (fun r =>
      { s with
        memory := r.1
        owner := afterPush n start round pc.item r.2
        pushed := Function.update s.pushed w (s.pushed w ++ pc.published) })
  | .submitting (.count job) =>
    (s.memory.fetchRelease owner .pendingJobs (fun v => (v + 1) % 2 ^ 32)).map (fun r =>
      { s with memory := r.2, owner := .idle, ledger := s.ledger ++ [.added job] })
  | .waiting since =>
    (s.memory.loadAcquire owner .pendingJobs i).map (fun r =>
      { s with memory := r.2, owner := if r.1 = 0 then .idle else .waiting since })
  | .stopping w =>
    if w < n then
      some { s with
        memory := s.memory.storeRelease owner (.stop w) 1
        owner := .stopping (w + 1) }
    else some { s with owner := .joining 0 }
  | .joining w =>
    if w < n then
      if s.workers w = .exited then
        some { s with
          memory := s.memory.setView owner (s.memory.view owner ⊔ s.memory.view (.worker w))
          owner := .joining (w + 1) }
      else none
    else some { s with owner := .destroyed }
  | .idle => none
  | .destroyed => none

/-- **`worker_main`** of worker `w`: its next access. -/
def workerNext (work : Job → ℕ → ℕ) (s : State) (w i : ℕ) : Option State :=
  match s.workers w with
  | .checkStop =>
    (s.memory.loadAcquire (.worker w) (.stop w) i).map (fun r =>
      { s with
        memory := r.2
        workers := Function.update s.workers w (.pop (decide (r.1 ≠ 0)) .loadTail) })
  | .pop draining pc =>
    ((queue w).tryPop queueCapacity s.memory i pc).map (fun r =>
      { s with
        memory := r.1
        workers := Function.update s.workers w (afterPop draining r.2)
        popped := Function.update s.popped w (s.popped w ++ pc.taken) })
  | .readInput draining job =>
    let r := s.memory.read (.worker w) (.input job)
    some { s with
      memory := r.2
      workers := Function.update s.workers w (.writeOutput draining job r.1) }
  | .writeOutput draining job x =>
    some { s with
      memory := s.memory.write (.worker w) (.output job) (work job x)
      workers := Function.update s.workers w (.subtract draining job)
      finished := Function.update s.finished w (s.finished w ++ [job]) }
  | .subtract draining job =>
    (s.memory.fetchRelease (.worker w) .pendingJobs (fun v => (v + (2 ^ 32 - 1)) % 2 ^ 32)).map
      (fun r =>
        { s with
          memory := r.2
          workers := Function.update s.workers w (afterJob draining)
          ledger := s.ledger ++ [.subtracted w job] })
  | .exited => none

/-! ## Runs -/

/-- **Who does what next**, and which message a load gets. -/
inductive Action where
  /-- The owner writes what a job is to work on and calls `submit`. -/
  | submit (x : ℕ)
  /-- The owner calls `wait_idle`. -/
  | waitIdle
  /-- The owner destroys the job system. -/
  | destroy
  /-- The owner makes its next access. -/
  | owner (i : ℕ)
  /-- Worker `w` makes its next access. -/
  | worker (w i : ℕ)
  deriving DecidableEq, Repr

/-- **One step of one thread**, with `n` workers. -/
def step (n : ℕ) (work : Job → ℕ → ℕ) (s : State) : Action → Option State
  | .submit x =>
    if s.owner = .idle then
      some { s with
        memory := s.memory.write owner (.input (s.inputs.length + 1)) x
        owner := .submitting (.fetchQueue (s.inputs.length + 1))
        inputs := s.inputs ++ [x] }
    else none
  | .waitIdle => if s.owner = .idle then some { s with owner := .waiting s.accepted } else none
  | .destroy => if s.owner = .idle then some { s with owner := .stopping 0 } else none
  | .owner i => ownerNext n s i
  | .worker w i => if w < n then workerNext work s w i else none

/-- **The job system**, from its constructor on. -/
def machine (n : ℕ) (work : Job → ℕ → ℕ) : Machine State Action where
  init := ⟨.new (fun _ => 0) (fun _ => 0), .idle, fun _ => .checkStop, [], [], fun _ => [],
    fun _ => [], fun _ => []⟩
  step := step n work

/-! ## The cases of a step -/

/-- **What a step can be**, with the memory it leaves. -/
inductive Moves (n : ℕ) (work : Job → ℕ → ℕ) (s : State) : State → Prop where
  | submit (x : ℕ) (howner : s.owner = .idle) :
      Moves n work s { s with
        memory := s.memory.write owner (.input (s.inputs.length + 1)) x
        owner := .submitting (.fetchQueue (s.inputs.length + 1))
        inputs := s.inputs ++ [x] }
  | waitIdle (howner : s.owner = .idle) : Moves n work s { s with owner := .waiting s.accepted }
  | destroy (howner : s.owner = .idle) : Moves n work s { s with owner := .stopping 0 }
  | fetchQueue {job : Job} {v : ℕ} {M : Memory} (howner : s.owner = .submitting (.fetchQueue job))
      (hfetch : s.memory.fetchRelaxed owner .nextQueue (fun v => (v + 1) % 2 ^ 32) = some (v, M)) :
      Moves n work s { s with
        memory := M, owner := .submitting (.push (v % n) 0 (.loadHead job)) }
  | push {start round i : ℕ} {pc : SpscQueue.Push Job} {M : Memory}
      {out : SpscQueue.Push Job ⊕ Bool} (howner : s.owner = .submitting (.push start round pc))
      (hpush : (queue (queueIndex n start round)).tryPush (2 ^ 12) s.memory i pc = some (M, out)) :
      Moves n work s { s with
        memory := M
        owner := afterPush n start round pc.item out
        pushed := Function.update s.pushed (queueIndex n start round)
          (s.pushed (queueIndex n start round) ++ pc.published) }
  | count {job : Job} {v : ℕ} {M : Memory} (howner : s.owner = .submitting (.count job))
      (hfetch : s.memory.fetchRelease owner .pendingJobs (fun v => (v + 1) % 2 ^ 32)
        = some (v, M)) :
      Moves n work s { s with
        memory := M, owner := .idle, ledger := s.ledger ++ [.added job] }
  | wait {since : List Job} {i v : ℕ} {M : Memory} (howner : s.owner = .waiting since)
      (hload : s.memory.loadAcquire owner .pendingJobs i = some (v, M)) :
      Moves n work s { s with
        memory := M, owner := if v = 0 then .idle else .waiting since }
  | stop {w : ℕ} (howner : s.owner = .stopping w) (hw : w < n) :
      Moves n work s { s with
        memory := s.memory.storeRelease owner (.stop w) 1, owner := .stopping (w + 1) }
  | stopped {w : ℕ} (howner : s.owner = .stopping w) : Moves n work s { s with owner := .joining 0 }
  | join {w : ℕ} (howner : s.owner = .joining w) (hw : w < n) (hexited : s.workers w = .exited) :
      Moves n work s { s with
        memory := s.memory.setView owner (s.memory.view owner ⊔ s.memory.view (.worker w))
        owner := .joining (w + 1) }
  | joined {w : ℕ} (howner : s.owner = .joining w) (hw : n ≤ w) :
      Moves n work s { s with owner := .destroyed }
  | checkStop {w i v : ℕ} {M : Memory} (hw : w < n) (hworker : s.workers w = .checkStop)
      (hload : s.memory.loadAcquire (.worker w) (.stop w) i = some (v, M)) :
      Moves n work s { s with
        memory := M
        workers := Function.update s.workers w (.pop (decide (v ≠ 0)) .loadTail) }
  | pop {w i : ℕ} {draining : Bool} {pc : SpscQueue.Pop Job} {M : Memory}
      {out : SpscQueue.Pop Job ⊕ Option Job} (hw : w < n) (hworker : s.workers w = .pop draining pc)
      (hpop : (queue w).tryPop (2 ^ 12) s.memory i pc = some (M, out)) :
      Moves n work s { s with
        memory := M
        workers := Function.update s.workers w (afterPop draining out)
        popped := Function.update s.popped w (s.popped w ++ pc.taken) }
  | readInput {w : ℕ} {draining : Bool} {job : Job} (hw : w < n)
      (hworker : s.workers w = .readInput draining job) :
      Moves n work s { s with
        memory := (s.memory.read (.worker w) (.input job)).2
        workers := Function.update s.workers w
          (.writeOutput draining job (s.memory.read (.worker w) (.input job)).1) }
  | writeOutput {w x : ℕ} {draining : Bool} {job : Job} (hw : w < n)
      (hworker : s.workers w = .writeOutput draining job x) :
      Moves n work s { s with
        memory := s.memory.write (.worker w) (.output job) (work job x)
        workers := Function.update s.workers w (.subtract draining job)
        finished := Function.update s.finished w (s.finished w ++ [job]) }
  | subtract {w v : ℕ} {draining : Bool} {job : Job} {M : Memory} (hw : w < n)
      (hworker : s.workers w = .subtract draining job)
      (hfetch : s.memory.fetchRelease (.worker w) .pendingJobs
        (fun v => (v + (2 ^ 32 - 1)) % 2 ^ 32) = some (v, M)) :
      Moves n work s { s with
        memory := M
        workers := Function.update s.workers w (afterJob draining)
        ledger := s.ledger ++ [.subtracted w job] }

variable {n : ℕ} {work : Job → ℕ → ℕ} {s s' : State}

theorem moves_of_ownerNext {i : ℕ} (h : ownerNext n s i = some s') : Moves n work s s' := by
  rw [ownerNext] at h
  split at h
  case h_1 job howner =>
    obtain ⟨⟨v, M⟩, hfetch, rfl⟩ := Option.map_eq_some_iff.mp h
    exact .fetchQueue howner hfetch
  case h_2 start round pc howner =>
    obtain ⟨⟨M, out⟩, hpush, rfl⟩ := Option.map_eq_some_iff.mp h
    exact .push howner hpush
  case h_3 job howner =>
    obtain ⟨⟨v, M⟩, hfetch, rfl⟩ := Option.map_eq_some_iff.mp h
    exact .count howner hfetch
  case h_4 since howner =>
    obtain ⟨⟨v, M⟩, hload, rfl⟩ := Option.map_eq_some_iff.mp h
    exact .wait howner hload
  case h_5 w howner =>
    split at h
    · cases h
      exact .stop howner ‹_›
    · cases h
      exact .stopped howner
  case h_6 w howner =>
    split at h
    · split at h
      · cases h
        exact .join howner ‹_› ‹_›
      · cases h
    · cases h
      exact .joined howner (Nat.le_of_not_lt ‹_›)
  case h_7 => cases h
  case h_8 => cases h

theorem moves_of_workerNext {w i : ℕ} (hw : w < n) (h : workerNext work s w i = some s') :
    Moves n work s s' := by
  rw [workerNext] at h
  split at h
  case h_1 hworker =>
    obtain ⟨⟨v, M⟩, hload, rfl⟩ := Option.map_eq_some_iff.mp h
    exact .checkStop hw hworker hload
  case h_2 draining pc hworker =>
    obtain ⟨⟨M, out⟩, hpop, rfl⟩ := Option.map_eq_some_iff.mp h
    exact .pop hw hworker hpop
  case h_3 draining job hworker =>
    cases h
    exact .readInput hw hworker
  case h_4 draining job x hworker =>
    cases h
    exact .writeOutput hw hworker
  case h_5 draining job hworker =>
    obtain ⟨⟨v, M⟩, hfetch, rfl⟩ := Option.map_eq_some_iff.mp h
    exact .subtract hw hworker hfetch
  case h_6 => cases h

/-- **There are no other steps.** -/
theorem step_cases {a : Action} (h : step n work s a = some s') : Moves n work s s' := by
  cases a with
  | submit x =>
    rw [step, Option.ite_none_right_eq_some] at h
    obtain ⟨howner, h⟩ := h
    cases h
    exact .submit x howner
  | waitIdle =>
    rw [step, Option.ite_none_right_eq_some] at h
    obtain ⟨howner, h⟩ := h
    cases h
    exact .waitIdle howner
  | destroy =>
    rw [step, Option.ite_none_right_eq_some] at h
    obtain ⟨howner, h⟩ := h
    cases h
    exact .destroy howner
  | owner i => exact moves_of_ownerNext h
  | worker w i =>
    rw [step, Option.ite_none_right_eq_some] at h
    exact moves_of_workerNext h.1 h.2

end JobSystemMemory
