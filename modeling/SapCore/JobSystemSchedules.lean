import SapCore.JobSystemIdle

/-!
# Calls carried out in one go

A schedule that lets one thread make all the accesses of a call, one after the
other, is a single step from the state before the call to the state after it.
This module has those steps – a `submit` that finds room, up to the push and
through the count, and a worker that takes a job and that ends one – for every
state they can start in. Schedules with any number of workers and jobs are put
together from them.
-/

namespace JobSystem

open SpscQueue (tryPush tryPop)

variable {n : ℕ} {s : State} {w : ℕ}

/-- The queue that the next call of `submit` tries first. -/
def State.startQueue (n : ℕ) (s : State) : ℕ := queueIndex n (s.nextQueue.toNat % n) 0

/-- A queue with one more job. -/
def enqueue (q : SpscQueue Job) (job : Job) : SpscQueue Job where
  head := SpscQueue.next queueCapacity q.head
  tail := q.tail
  buffer := Function.update q.buffer q.head job

/-- A queue with its first job taken. -/
def dequeue (q : SpscQueue Job) : SpscQueue Job where
  head := q.head
  tail := SpscQueue.next queueCapacity q.tail
  buffer := q.buffer

/-- Client zero has called `submit` and pushed its job. -/
def State.afterPush (n : ℕ) (s : State) : State :=
  { s with
    queues := Function.update s.queues (s.startQueue n)
      (enqueue (s.queues (s.startQueue n)) (s.submitted + 1))
    nextQueue := s.nextQueue + 1
    clients := Function.update s.clients 0 (.submitting (.count (s.submitted + 1)))
    submitted := s.submitted + 1
    pushed := Function.update s.pushed (s.startQueue n)
      (s.pushed (s.startQueue n) ++ [s.submitted + 1]) }

/-- Client zero has counted its job and returned from `submit`. -/
def State.afterCount (s : State) (job : Job) : State :=
  { s with
    pendingJobs := s.pendingJobs + 1
    clients := Function.update s.clients 0 .idle
    accepted := s.accepted ++ [job] }

/-- Worker `w` has taken the first job of its queue and runs it. -/
def State.afterTake (s : State) (w : ℕ) : State :=
  { s with
    queues := Function.update s.queues w (dequeue (s.queues w))
    workers := Function.update s.workers w
      (.running false ((s.queues w).buffer (s.queues w).tail) none)
    popped := Function.update s.popped w
      (s.popped w ++ [(s.queues w).buffer (s.queues w).tail]) }

/-- Worker `w` has ended its job and subtracted it. -/
def State.afterRun (s : State) (w : ℕ) (job : Job) : State :=
  { s with
    pendingJobs := s.pendingJobs - 1
    workers := Function.update s.workers w .checkStop
    finished := Function.update s.finished w (s.finished w ++ [job])
    subtracted := Function.update s.subtracted w (s.subtracted w ++ [job]) }

/-- Client `t` has called `wait_idle`. -/
def State.afterWait (s : State) (t : ℕ) : State :=
  { s with clients := Function.update s.clients t (.waiting s.accepted) }

theorem afterPush_queues_of_ne (hw : w ≠ s.startQueue n) :
    (s.afterPush n).queues w = s.queues w :=
  Function.update_of_ne hw _ _

theorem afterPush_queues_self (hw : s.startQueue n = w) :
    (s.afterPush n).queues w = enqueue (s.queues w) (s.submitted + 1) := by
  subst hw
  exact Function.update_self _ _ _

theorem afterTake_workers_self : ∃ job, (s.afterTake w).workers w = .running false job none :=
  ⟨_, by simp [State.afterTake]; rfl⟩

theorem length_afterTake_popped :
    ((s.afterTake w).popped w).length = (s.popped w).length + 1 := by
  simp [State.afterTake]

theorem afterWait_clients_self {t : ℕ} : (s.afterWait t).clients t = .waiting s.accepted := by
  simp [State.afterWait]

/-- A call of `submit` that finds room in the first queue it tries. -/
theorem run_push (hidle : s.clients 0 = .idle)
    (hroom : SpscQueue.next queueCapacity (s.queues (s.startQueue n)).head
      ≠ (s.queues (s.startQueue n)).tail) :
    (machine n).run s (.submit (.client 0) :: List.replicate 5 (.next (.client 0)))
      = some (s.afterPush n) := by
  have hqueue : queueIndex n (s.nextQueue.toNat % n) 0 = s.startQueue n := rfl
  simp [Machine.run, machine, List.replicate, step, State.canSubmit, hidle, State.setCall,
    State.call, Client.call, Client.ofCall, submit, tryPush, hqueue, hroom,
    SpscQueue.Push.published, SpscQueue.Push.item, State.afterPush, enqueue]

theorem run_count {job : Job} (hpc : s.clients 0 = .submitting (.count job)) :
    (machine n).run s [.next (.client 0)] = some (s.afterCount job) := by
  simp [Machine.run, machine, step, State.setCall, State.call, Client.call, hpc, Client.ofCall,
    submit, State.afterCount]

/-- A worker that looks for a job and finds one. -/
theorem run_take (hw : w < n) (hpc : s.workers w = .checkStop) (hstop : s.stopRequested w = false)
    (hsome : (s.queues w).tail ≠ (s.queues w).head) :
    (machine n).run s (List.replicate 5 (.next (.worker w))) = some (s.afterTake w) := by
  simp [Machine.run, machine, List.replicate, step, State.call, Worker.call, hpc, hw, workerMain,
    hstop, tryPop, hsome, SpscQueue.Pop.taken, State.afterTake, dequeue]

theorem run_finish {job : Job} (hw : w < n) (hpc : s.workers w = .running false job none) :
    (machine n).run s (List.replicate 2 (.next (.worker w))) = some (s.afterRun w job) := by
  simp [Machine.run, machine, List.replicate, step, State.call, Worker.call, hpc, hw, workerMain,
    State.afterRun]

theorem run_wait {t : ℕ} (hpc : s.clients t = .idle) :
    (machine n).run s [.waitIdle t] = some (s.afterWait t) := by
  simp [Machine.run, machine, step, hpc, State.afterWait]

end JobSystem
